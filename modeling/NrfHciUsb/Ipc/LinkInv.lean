import NrfHciUsb.Ipc.Interleave

/-!
# Ipc — LinkInv

The invariant of the link between the two cores, and what follows from it: as long as fewer than
`2^32` ring bytes are written, the consumer loads only bytes of published frames it has not
released, the producer stores only to bytes of none, and what is consumed is a prefix of what is
accepted (`link_fifo`).

`Writing` and `Reading` say where in its call each core can be, and their `step` lemmas what its
next access can be; the invariant is kept because neither changes what the other relies on.
-/

namespace NrfHciUsb
open Support

/-! ### The producer -/

/-- The producer at its position `W`, the consumer's being at least `R`, with the bytes `part` of
its frame stored. -/
inductive Writing (n : Usize) (W R : ℕ) : Thread RingOp.Res (List UInt8) Bool → List UInt8 → Prop
  | idle : Writing n W R .idle []
  | start (p : List UInt8) (hp : 2 + p.length ≤ n.toNat) :
      Writing n W R (.running p (rbWrite n p)) []
  | loaded (p : List UInt8) :
      Writing n W R (.running p (.vis .loadReadIdx (writeChecked n p (UInt32.ofNat W)))) []
  | storing (p done todo : List UInt8) (hf : frame p = done ++ todo)
      (hroom : W + (2 + p.length) ≤ R + n.toNat) :
      Writing n W R (.running p (storeFrom n (UInt32.ofNat W)
        (UInt32.ofNat W + UInt32.ofNat (2 + p.length)) done.length todo)) done

/-- The consumer only makes room. -/
theorem Writing.mono {n : Usize} {W R R' : ℕ} {t : Thread RingOp.Res (List UInt8) Bool}
    {part : List UInt8} (h : Writing n W R t part) (hR : R ≤ R') : Writing n W R' t part := by
  cases h with
  | idle => exact .idle
  | start p hp => exact .start p hp
  | loaded p => exact .loaded p
  | storing p _ todo hf hroom => exact .storing p part todo hf (by omega)

/-- **The producer's next access**: a load, or the store of the next byte of a frame there is
room for, or, behind the whole frame, of `write_idx`. -/
theorem Writing.step {n : Usize} {W R : ℕ} {t t' : Thread RingOp.Res (List UInt8) Bool}
    {part : List UInt8} {m m' : Ring} {e : Thread.Event RingOp (List UInt8) Bool}
    (h : Writing n W R t part) (hW : m.writeIdx = UInt32.ofNat W)
    (hR : m.readIdx = UInt32.ofNat R) (hle : R ≤ W) (hused : W ≤ R + n.toNat)
    (hs : t.step Ring.perform m = some (e, t', m')) :
    (m' = m ∧ Writing n W R t' part ∧ e.result ≠ some true ∧ ∀ a b, e.op ≠ .storeData a b) ∨
    (∃ b, e.op = .storeData (ringSlot n (W + part.length)) b ∧ e.result = none ∧
      m' = { m with data := Function.update m.data (ringSlot n (W + part.length)) b } ∧
      W + part.length < R + n.toNat ∧ Writing n W R t' (part ++ [b])) ∨
    (∃ v, e.op = .storeWriteIdx v ∧ e.result = some true ∧ t' = .idle ∧ part = frame e.input ∧
      W + (2 + e.input.length) ≤ R + n.toNat ∧
      m' = { m with writeIdx := UInt32.ofNat (W + (2 + e.input.length)) }) := by
  cases h with
  | idle => cases hs
  | start p hp =>
      rw [rbWrite_eq hp] at hs
      simp only [Thread.step_running, Thread.settle, Ring.perform, Option.some.injEq,
        Prod.mk.injEq, hW] at hs
      obtain ⟨rfl, rfl, rfl⟩ := hs
      exact .inl ⟨rfl, .loaded p, by simp, by simp⟩
  | loaded p =>
      simp only [Thread.step_running, Ring.perform, Option.some.injEq, Prod.mk.injEq, hR] at hs
      obtain ⟨rfl, rfl, rfl⟩ := hs
      left
      have hn := n.toNat_lt
      have hd : (UInt32.ofNat W - UInt32.ofNat R).toNat = W - R := by
        obtain ⟨k, rfl⟩ := Nat.exists_eq_add_of_le hle
        rw [ofNat_add_sub_toNat (by omega), Nat.add_sub_cancel_left]
      have hfree : (n - (UInt32.ofNat W - UInt32.ofNat R)).toNat = n.toNat - (W - R) := by
        rw [UInt32.toNat_sub_of_le, hd]
        rw [UInt32.le_iff_toNat_le, hd]
        omega
      by_cases hroom : n.toNat - (W - R) < 2 + p.length
      · simp only [writeChecked, hfree, hroom, if_true, Thread.settle]
        exact ⟨trivial, .idle, by simp, by simp⟩
      · simp only [writeChecked, hfree, hroom, if_false, frame, storeFrom, Thread.settle]
        exact ⟨trivial, .storing p [] (frame p) rfl (by omega), by simp, by simp⟩
  | storing p _ todo hf hroom =>
      have hlen := congrArg List.length hf
      simp only [frame_length, List.length_append] at hlen
      cases todo with
      | nil =>
          simp only [storeFrom, Thread.step_running, Thread.settle, Ring.perform,
            Option.some.injEq, Prod.mk.injEq] at hs
          obtain ⟨rfl, rfl, rfl⟩ := hs
          refine .inr (.inr ⟨_, rfl, rfl, rfl, by simpa using hf.symm, hroom, ?_⟩)
          rw [← UInt32.ofNat_add]
      | cons b todo =>
          simp only [List.length_cons] at hlen
          have hnext := Writing.storing p (part ++ [b]) todo (by simpa using hf) hroom
          rw [List.length_append, List.length_singleton] at hnext
          simp only [storeFrom, Thread.step_running, Ring.perform, ← ringSlot_add,
            Option.some.injEq, Prod.mk.injEq] at hs
          obtain ⟨rfl, rfl, rfl⟩ := hs
          refine .inr (.inl ⟨b, rfl, ?_, rfl, by omega, ?_⟩)
          · cases todo <;> rfl
          · cases todo <;> exact hnext

/-! ### The consumer -/

/-- The consumer at its position `R`, with the frames `q` published and not released, the producer
being at `W`; a `write_idx` it has loaded is of a position between `L` and `W`. -/
inductive Reading (n : Usize) (R L W : ℕ) (q : List (List UInt8)) :
    Thread RingOp.Res (List UInt8) (Option ℕ × List UInt8) → Prop
  | idle : Reading n R L W q .idle
  | start (out : List UInt8) : Reading n R L W q (.running out (rbRead n out))
  | loaded (out : List UInt8) (w : ℕ) (hL : L ≤ w) (hW : w ≤ W) :
      Reading n R L W q (.running out (.vis .loadReadIdx (readChecked n out (UInt32.ofNat w))))
  | lo (out : List UInt8) (hq : q ≠ []) :
      Reading n R L W q (.running out (readHead n (UInt32.ofNat R) out))
  | hi (out p : List UInt8) (q' : List (List UInt8)) (hq : q = p :: q') :
      Reading n R L W q (.running out (.vis (.loadData ((UInt32.ofNat R + 1) % n)) fun hi =>
        readLen n (UInt32.ofNat R) out
          (u16FromLeBytes (u16ToLeBytes (UInt16.ofNat p.length)).1 hi).toNat))
  | body (out p : List UInt8) (q' : List (List UInt8)) (hq : q = p :: q')
      (hfit : p.length ≤ out.length) (i : ℕ) (hi : i ≤ p.length) :
      Reading n R L W q (.running out
        (readBody n (UInt32.ofNat R) p.length i (p.take i ++ out.drop i)))
  | skip (out p : List UInt8) (q' : List (List UInt8)) (hq : q = p :: q')
      (hbig : out.length < p.length) :
      Reading n R L W q (.running out
        (.vis (.storeReadIdx (UInt32.ofNat R + 2 + UInt32.ofNat p.length)) fun _ =>
          .ret (none, out)))

/-- The producer only adds frames. -/
theorem Reading.mono {n : Usize} {R L W W' : ℕ} {q q' : List (List UInt8)}
    {t : Thread RingOp.Res (List UInt8) (Option ℕ × List UInt8)} (h : Reading n R L W q t)
    (hW : W ≤ W') : Reading n R L W' (q ++ q') t := by
  cases h with
  | idle => exact .idle
  | start out => exact .start out
  | loaded out w hL hw => exact .loaded out w hL (by omega)
  | lo out hq => exact .lo out (by simp [hq])
  | hi out p q₁ hq => exact .hi out p (q₁ ++ q') (by simp [hq])
  | body out p q₁ hq hfit i hi => exact .body out p (q₁ ++ q') (by simp [hq]) hfit i hi
  | skip out p q₁ hq hbig => exact .skip out p (q₁ ++ q') (by simp [hq]) hbig

/-- The loop over the payload has an access left: a load, or the store of `read_idx`. -/
theorem settle_readBody {n r : Usize} {k i : ℕ} (h : i ≤ k) (out out' : List UInt8) :
    Thread.settle out (readBody n r k i out') = (.running out (readBody n r k i out'), none) := by
  rcases h.lt_or_eq with hlt | rfl
  · rw [readBody_lt hlt]; rfl
  · rw [readBody_self]; rfl

/-- The next byte of the payload takes its place in the buffer. -/
theorem set_take_append_drop {p : List UInt8} (out : List UInt8) {i : ℕ} (hp : i < p.length)
    (ho : i < out.length) :
    (p.take i ++ out.drop i).set i p[i] = p.take (i + 1) ++ out.drop (i + 1) := by
  have hlen : (p.take i).length = i := List.length_take_of_le hp.le
  rw [List.set_append_right _ _ hlen.le, hlen, Nat.sub_self, List.drop_eq_getElem_cons ho,
    List.set_cons_zero, List.take_add_one, List.getElem?_eq_getElem hp, Option.toList_some,
    List.append_assoc, List.singleton_append]

/-- **The consumer's next access**: a load, which may find the ring empty, or the release of the
first frame, whose payload is in `out` if it fits. -/
theorem Reading.step {n : Usize} {R L W : ℕ} {q : List (List UInt8)}
    {t t' : Thread RingOp.Res (List UInt8) (Option ℕ × List UInt8)} {m m' : Ring}
    {e : Thread.Event RingOp (List UInt8) (Option ℕ × List UInt8)} (h : Reading n R L W q t)
    (hm : Contents n m R q) (hW : W = R + ringBytes q) (hRL : R ≤ L) (hLW : L ≤ W)
    (hn : n.toNat ≤ 65537)
    (hs : t.step Ring.perform m = some (e, t', m')) :
    (m' = m ∧ Reading n R L W q t' ∧ (∀ v, e.op ≠ .storeReadIdx v) ∧
      ∀ r, e.result = some r → r = (none, e.input) ∧ (L = W → q = [])) ∨
    (∃ p q', q = p :: q' ∧ e.op = .storeReadIdx (UInt32.ofNat (R + (2 + p.length))) ∧
      t' = .idle ∧ m' = m.released R p.length ∧
      ((p.length ≤ e.input.length ∧
          e.result = some (some p.length, p ++ e.input.drop p.length)) ∨
        (e.input.length < p.length ∧ e.result = some (none, e.input)))) := by
  cases h with
  | idle => cases hs
  | start out =>
      rw [rbRead_eq] at hs
      simp only [Thread.step_running, Thread.settle, Ring.perform, Option.some.injEq,
        Prod.mk.injEq, hm.writeIdx] at hs
      obtain ⟨rfl, rfl, rfl⟩ := hs
      exact .inl ⟨rfl, .loaded out _ (by omega) (by omega), by simp, by simp⟩
  | loaded out w hLw hwW =>
      simp only [Thread.step_running, Ring.perform, Option.some.injEq, Prod.mk.injEq,
        hm.readIdx] at hs
      obtain ⟨rfl, rfl, rfl⟩ := hs
      left
      by_cases hw : UInt32.ofNat w = UInt32.ofNat R
      · simp only [readChecked, hw, if_true, Thread.settle]
        refine ⟨trivial, .idle, by simp, ?_⟩
        rintro r ⟨⟩
        refine ⟨rfl, fun hL => ?_⟩
        rw [show w = R + ringBytes q by omega, ofNat_add_eq_iff hm.ringBytes_lt] at hw
        cases q with
        | nil => rfl
        | cons p q => simp at hw
      · have hq : q ≠ [] := by
          rintro rfl
          rw [ringBytes_nil] at hW
          exact hw (by rw [show w = R by omega])
        simp only [readChecked, hw, if_false, readHead, Thread.settle]
        exact ⟨trivial, .lo out hq, by simp, by simp⟩
  | lo out hq =>
      obtain ⟨p, q', rfl⟩ := List.exists_cons_of_ne_nil hq
      have hlo : m.data (UInt32.ofNat R % n) = _ := (holds_frame.mp hm.head).1
      rw [readHead] at hs
      simp only [Thread.step_running, Ring.perform, Option.some.injEq, Prod.mk.injEq,
        Thread.settle, hlo] at hs
      obtain ⟨rfl, rfl, rfl⟩ := hs
      exact .inl ⟨rfl, .hi out p q' rfl, by simp, by simp⟩
  | hi out p q' hq =>
      subst hq
      have hhi : m.data ((UInt32.ofNat R + 1) % n) = _ :=
        ringSlot_add n R 1 ▸ (holds_frame.mp hm.head).2.1
      have hlen : p.length < 65536 := by
        have := hm.fits
        simp only [ringBytes_cons] at this
        omega
      simp only [Thread.step_running, Ring.perform, Option.some.injEq, Prod.mk.injEq, hhi,
        frame_header hlen] at hs
      obtain ⟨rfl, rfl, rfl⟩ := hs
      left
      by_cases hbig : p.length > out.length
      · simp only [readLen, hbig, if_true, Thread.settle]
        exact ⟨trivial, .skip out p q' rfl hbig, by simp, by simp⟩
      · have hnext := Reading.body (n := n) (R := R) (L := L) (W := W) out p q' rfl (by omega) 0
          (by omega)
        rw [List.take_zero, List.nil_append, List.drop_zero] at hnext
        simp only [readLen, hbig, if_false, settle_readBody (Nat.zero_le p.length)]
        exact ⟨trivial, hnext, by simp, by simp⟩
  | body out p q' hq hfit i hi =>
      subst hq
      rcases hi.lt_or_eq with hlt | rfl
      · have hb := (holds_frame.mp hm.head).2.2 i hlt
        have hnext := Reading.body (n := n) (R := R) (L := L) (W := W) out p q' rfl hfit (i + 1) hlt
        have hset := set_take_append_drop out hlt (by omega)
        rw [readBody_lt hlt] at hs
        simp only [Thread.step_running, Ring.perform, Option.some.injEq, Prod.mk.injEq,
          ringSlot_payload, hb, hset, settle_readBody (Nat.succ_le_of_lt hlt)] at hs
        obtain ⟨rfl, rfl, rfl⟩ := hs
        exact .inl ⟨rfl, hnext, by simp, by simp⟩
      · rw [readBody_self] at hs
        simp only [Thread.step_running, Thread.settle, Ring.perform, Option.some.injEq,
          Prod.mk.injEq, ofNat_frame_end, List.take_length] at hs
        obtain ⟨rfl, rfl, rfl⟩ := hs
        exact .inr ⟨p, q', rfl, rfl, rfl, rfl, .inl ⟨hfit, rfl⟩⟩
  | skip out p q' hq hbig =>
      simp only [Thread.step_running, Thread.settle, Ring.perform, Option.some.injEq,
        Prod.mk.injEq, ofNat_frame_end] at hs
      obtain ⟨rfl, rfl, rfl⟩ := hs
      exact .inr ⟨p, q', hq, rfl, rfl, rfl, .inr ⟨hbig, rfl⟩⟩

/-- The bytes a discarded frame's payload has in the ring are the payload. -/
theorem Contents.skipped {n : Usize} {m : Ring} {R : ℕ} {p : List UInt8}
    {q : List (List UInt8)} (h : Contents n m R (p :: q)) :
    m.skipped n (UInt32.ofNat (R + (2 + p.length))) = p := by
  have hlt := h.ringBytes_lt
  rw [ringBytes_cons] at hlt
  have hlen : (UInt32.ofNat (R + (2 + p.length)) - UInt32.ofNat R - 2).toNat = p.length := by
    rw [show R + (2 + p.length) = p.length + 2 + R by omega, UInt32.ofNat_add,
      UInt32.add_sub_cancel, UInt32.ofNat_add, show UInt32.ofNat 2 = 2 from rfl,
      UInt32.add_sub_cancel, toNat_ofNat_of_lt (by omega)]
  have hbody := (holds_frame.mp h.head).2.2
  rw [Ring.skipped, h.readIdx, hlen]
  refine List.ext_getElem (by simp) fun i hi _ => ?_
  rw [List.length_map, List.length_range] at hi
  rw [List.getElem_map, List.getElem_range, ringSlot_payload, hbody i hi]

/-- An access with which no frame is returned or discarded. -/
theorem Ring.taken_none {n : Usize} (m : Ring)
    {e : Thread.Event RingOp (List UInt8) (Option ℕ × List UInt8)}
    (hop : ∀ v, e.op ≠ .storeReadIdx v) (hres : ∀ r, e.result = some r → r.1 = none) :
    m.taken n e = none := by
  rw [Ring.taken]
  split
  · rename_i hsome
    exact absurd (hres _ hsome) (by simp)
  · exact absurd ‹_› (hop _)
  · rfl

/-- The return of a frame that fits. -/
theorem Ring.taken_returned {n : Usize} (m : Ring) {p rest : List UInt8}
    {e : Thread.Event RingOp (List UInt8) (Option ℕ × List UInt8)}
    (hres : e.result = some (some p.length, p ++ rest)) :
    m.taken n e = some (.returned p) := by
  simp [Ring.taken, hres]

/-! ### The invariant -/

/-- With the consumer at `R`, the frames `q` published and not released, and the bytes `part` of
the producer's frame stored. -/
structure LinkInv (n : Usize) (s : Link) (R : ℕ) (q : List (List UInt8)) (part : List UInt8) :
    Prop where
  contents : Contents n s.ring R q
  position : R = ringBytes (s.consumed.map Taken.payload)
  accepted : s.accepted = s.consumed.map Taken.payload ++ q
  partial_holds : Holds (ringSlot n) s.ring.data (R + ringBytes q) part
  written : s.written = ringBytes s.accepted + part.length
  producer : Writing n (R + ringBytes q) R s.producer part
  consumer : Reading n R R (R + ringBytes q) q s.consumer
  oversized : ∀ p L, .discarded p L ∈ s.consumed → L < p.length

variable {n : Usize} {s s' : Link} {R : ℕ} {q : List (List UInt8)} {part : List UInt8}

/-- The producer is where all frames accepted end. -/
theorem LinkInv.end_eq (h : LinkInv n s R q part) : R + ringBytes q = ringBytes s.accepted := by
  rw [h.accepted, ringBytes_append, ← h.position]

theorem linkInv_init (n : Usize) (ring : Ring) : LinkInv n (link n ring).init 0 [] [] where
  contents := contents_ipcInit n ring
  position := rfl
  accepted := rfl
  partial_holds := .nil
  written := rfl
  producer := .idle
  consumer := .idle
  oversized := by simp [link]

/-- The cell of the next byte to store is none of those in use. -/
theorem LinkInv.store_fresh (h : LinkInv n s R q part)
    (hroom : R + ringBytes q + part.length < R + n.toNat) (hw : s.written + 1 < 2 ^ 32) {x : ℕ}
    (hx : R ≤ x) (hx' : x < R + (q.flatMap frame ++ part).length) :
    ringSlot n x ≠ ringSlot n (R + (q.flatMap frame ++ part).length) := by
  have hend := h.end_eq
  have hwr := h.written
  rw [List.length_append, flatMap_frame_length] at hx' ⊢
  refine slot_ne_of_injOn (k := ringBytes q + part.length + 1) ?_ hx hx' (by omega)
  exact injOn_ringSlot.mpr (injOn_slot_of_le (by omega) (by omega))

/-- **The producer's access** keeps the invariant. -/
theorem LinkInv.producer_step {e : Thread.Event RingOp (List UInt8) Bool}
    {t : Thread RingOp.Res (List UInt8) Bool} {m : Ring} (h : LinkInv n s R q part)
    (hst : s.producer.step Ring.perform s.ring = some (e, t, m))
    (hw : (s.produced e t m).written < 2 ^ 32) :
    ∃ q' part', LinkInv n (s.produced e t m) R q' part' ∧ (e.result ≠ some true → q' = q) := by
  have hfits := h.contents.fits
  rcases h.producer.step h.contents.writeIdx h.contents.readIdx (by omega) (by omega) hst with
    ⟨rfl, ht, hres, hop⟩ | ⟨b, hop, hres, rfl, hroom, ht⟩ | ⟨v, hop, hres, rfl, hpart, hroom, rfl⟩
  · -- a load
    refine ⟨q, part, ⟨h.contents, h.position, ?_, h.partial_holds, ?_, ht, h.consumer,
      h.oversized⟩, fun _ => rfl⟩
    · simpa [Link.produced, hres] using h.accepted
    · cases hop' : e.op <;> simp [Link.produced, hres, hop', h.written]
      exact absurd hop' (hop _ _)
  · -- the store of the next byte
    have hw' : s.written + 1 < 2 ^ 32 := by simpa [Link.produced, hop] using hw
    have hall := (holds_append.mpr ⟨h.contents.holds,
      (flatMap_frame_length q).symm ▸ h.partial_holds⟩).store (a := b)
        fun x => h.store_fresh hroom hw'
    rw [List.append_assoc, List.length_append, flatMap_frame_length, ← Nat.add_assoc] at hall
    have hpart := hall.right
    rw [flatMap_frame_length] at hpart
    refine ⟨q, part ++ [b], ⟨⟨h.contents.readIdx, h.contents.writeIdx, hfits, hall.left⟩,
      h.position, ?_, hpart, ?_, ht, h.consumer, h.oversized⟩, fun _ => rfl⟩
    · simpa [Link.produced, hres] using h.accepted
    · simp [Link.produced, hres, hop, h.written, Nat.add_assoc]
  · -- the store of `write_idx`: the frame is published
    have hlen : R + ringBytes q + (2 + e.input.length) = R + ringBytes (q ++ [e.input]) := by
      simp [Nat.add_assoc]
    have hall := holds_append.mpr ⟨h.contents.holds,
      (flatMap_frame_length q).symm ▸ h.partial_holds⟩
    refine ⟨q ++ [e.input], [], ⟨⟨h.contents.readIdx, ?_, by omega, ?_⟩, h.position, ?_, .nil, ?_,
      .idle, h.consumer.mono (by omega), h.oversized⟩, fun hne => absurd hres hne⟩
    · rw [Link.produced, hlen]
    · rw [hpart] at hall
      simpa [Link.produced] using hall
    · simp [Link.produced, hres, h.accepted]
    · have hwr := h.written
      rw [hpart, frame_length] at hwr
      simp [Link.produced, hres, hop, hwr]

/-- **The consumer's access** keeps the invariant. -/
theorem LinkInv.consumer_step {e : Thread.Event RingOp (List UInt8) (Option ℕ × List UInt8)}
    {t : Thread RingOp.Res (List UInt8) (Option ℕ × List UInt8)} {m : Ring}
    (hn : n.toNat ≤ 65537) (h : LinkInv n s R q part)
    (hst : s.consumer.step Ring.perform s.ring = some (e, t, m)) :
    ∃ R' q', LinkInv n (s.consumedBy n e t m) R' q' part ∧
      ((∀ v, e.op ≠ .storeReadIdx v) → R' = R ∧ q' = q) := by
  rcases h.consumer.step h.contents rfl le_rfl (Nat.le_add_right _ _) hn hst with
    ⟨rfl, ht, hop, hempty⟩ | ⟨p, q', rfl, hop, rfl, rfl, hres⟩
  · -- a load
    have hnone := s.ring.taken_none (n := n) hop fun r hr => by rw [(hempty r hr).1]
    refine ⟨R, q, ⟨h.contents, ?_, ?_, h.partial_holds, h.written, h.producer, ht, ?_⟩,
      fun _ => ⟨rfl, rfl⟩⟩
    · simpa [Link.consumedBy, hnone] using h.position
    · simpa [Link.consumedBy, hnone] using h.accepted
    · simpa [Link.consumedBy, hnone] using h.oversized
  · -- the store of `read_idx`: the first frame is released
    obtain ⟨x, hx, hxp, hover⟩ : ∃ x, s.ring.taken n e = some x ∧ x.payload = p ∧
        ∀ p' L, x = .discarded p' L → L < p'.length := by
      rcases hres with ⟨hfit, hres⟩ | ⟨hbig, hres⟩
      · exact ⟨.returned p, s.ring.taken_returned hres, rfl, by simp⟩
      · refine ⟨.discarded p e.input.length, ?_, rfl, ?_⟩
        · simp only [Ring.taken, hop, hres, h.contents.skipped]
        · rintro p' L ⟨⟩; exact hbig
    have hend : R + (2 + p.length) + ringBytes q' = R + ringBytes (p :: q') := by
      simp [Nat.add_assoc]
    refine ⟨R + (2 + p.length), q', ⟨h.contents.release, ?_, ?_, ?_, h.written, ?_, .idle, ?_⟩,
      fun hne => absurd hop (hne _)⟩
    · simp [Link.consumedBy, hx, hxp, ← h.position]
    · simp [Link.consumedBy, hx, hxp, h.accepted]
    · rw [hend]; exact h.partial_holds
    · rw [hend]; exact h.producer.mono (by omega)
    · intro p' L hmem
      simp only [Link.consumedBy, hx, Option.toList_some, List.mem_append,
        List.mem_singleton] at hmem
      rcases hmem with hmem | hmem
      · exact h.oversized p' L hmem
      · exact hover p' L hmem.symm

/-- The beginning of a write. -/
theorem LinkInv.write (h : LinkInv n s R q part) {payload : List UInt8}
    (hs : s.step n (.write payload) = some s') : LinkInv n s' R q part := by
  obtain ⟨t, hst, rfl⟩ := Option.map_eq_some_iff.mp hs
  obtain ⟨hidle, rfl⟩ := Thread.start_eq_some hst
  have hp := h.producer
  rw [hidle] at hp
  obtain rfl : part = [] := by cases hp; rfl
  refine { h with producer := ?_ }
  by_cases hfit : 2 + payload.length ≤ n.toNat
  · have hstart := Writing.start (n := n) (W := R + ringBytes q) (R := R) payload hfit
    rw [rbWrite_eq hfit] at hstart ⊢
    exact hstart
  · rw [rbWrite_eq_ret (by omega)]
    exact .idle

/-- The beginning of a read. -/
theorem LinkInv.read (h : LinkInv n s R q part) {out : List UInt8}
    (hs : s.step n (.read out) = some s') : LinkInv n s' R q part := by
  obtain ⟨t, hst, rfl⟩ := Option.map_eq_some_iff.mp hs
  obtain ⟨-, rfl⟩ := Thread.start_eq_some hst
  exact { h with consumer := .start out }

theorem written_le {a : LinkAct} (hs : s.step n a = some s') : s.written ≤ s'.written := by
  cases a <;> obtain ⟨x, -, rfl⟩ := Option.map_eq_some_iff.mp hs
  case producer => dsimp only [Link.produced]; split <;> omega
  all_goals exact le_rfl

/-- **One step** keeps the invariant, until `2^32` ring bytes are written. -/
theorem linkInv_step (hn : n.toNat ≤ 65537) {a : LinkAct} (hs : s.step n a = some s')
    (hw : s'.written < 2 ^ 32) (h : ∃ R q part, LinkInv n s R q part) :
    ∃ R q part, LinkInv n s' R q part := by
  obtain ⟨R, q, part, h⟩ := h
  cases a with
  | write payload => exact ⟨R, q, part, h.write hs⟩
  | read out => exact ⟨R, q, part, h.read hs⟩
  | producer =>
      obtain ⟨⟨e, t, m⟩, hst, rfl⟩ := Option.map_eq_some_iff.mp hs
      obtain ⟨q', part', h', -⟩ := h.producer_step hst hw
      exact ⟨R, q', part', h'⟩
  | consumer =>
      obtain ⟨⟨e, t, m⟩, hst, rfl⟩ := Option.map_eq_some_iff.mp hs
      obtain ⟨R', q', h', -⟩ := h.consumer_step hn hst
      exact ⟨R', q', part, h'⟩

/-- **Every run** keeps it. -/
theorem linkInv_of_reachable (hn : n.toNat ≤ 65537) {ring : Ring} (h : (link n ring).Reachable s)
    (hw : s.written < 2 ^ 32) : ∃ R q part, LinkInv n s R q part := by
  refine h.invariant (P := fun s => s.written < 2 ^ 32 → ∃ R q part, LinkInv n s R q part)
    (fun _ => ⟨0, [], [], linkInv_init n ring⟩) (fun s a s' ih hs hw => ?_) hw
  exact linkInv_step hn hs hw (ih ((written_le hs).trans_lt hw))

/-! ### What follows -/

/-- The offset of a byte of a published frame the consumer has not released. -/
def Link.Published (n : Usize) (s : Link) (a : Usize) : Prop :=
  ∃ x, s.ring.readIdx.toNat ≤ x ∧ x < s.ring.writeIdx.toNat ∧ a = ringSlot n x

/-- The offset of a byte, below position `2^32`, that the producer may yet fill or is filling. -/
def Link.Unpublished (n : Usize) (s : Link) (a : Usize) : Prop :=
  ∃ y, s.ring.writeIdx.toNat ≤ y ∧ y < s.ring.readIdx.toNat + n.toNat ∧ y < 2 ^ 32 ∧
    a = ringSlot n y

theorem LinkInv.idx_toNat (h : LinkInv n s R q part) (hw : s.written < 2 ^ 32) :
    s.ring.readIdx.toNat = R ∧ s.ring.writeIdx.toNat = R + ringBytes q := by
  have hend := h.end_eq
  have hwr := h.written
  rw [h.contents.readIdx, h.contents.writeIdx]
  exact ⟨toNat_ofNat_of_lt (by omega), toNat_ofNat_of_lt (by omega)⟩

/-- No byte is both. -/
theorem published_ne_unpublished {a : Usize} (h : s.Published n a) : ¬ s.Unpublished n a := by
  rintro ⟨y, hy, hy', hy32, rfl⟩
  obtain ⟨x, hx, hx', he⟩ := h
  rw [ringSlot_inj, slot_of_lt hy32, slot_of_lt (by omega)] at he
  exact mod_ne_of_lt_add (by omega) (by omega) he.symm

/-- The producer stores next behind what it has stored. -/
theorem Writing.nextOp_storeData {W R : ℕ} {t : Thread RingOp.Res (List UInt8) Bool}
    {a : Usize} {b : UInt8} (h : Writing n W R t part) (ht : t.nextOp = some (.storeData a b)) :
    a = ringSlot n (W + part.length) ∧ W + part.length < R + n.toNat := by
  cases h with
  | idle => cases ht
  | start p hp => rw [rbWrite_eq hp] at ht; cases ht
  | loaded p => cases ht
  | storing p _ todo hf hroom =>
      have hlen := congrArg List.length hf
      simp only [frame_length, List.length_append] at hlen
      cases todo with
      | nil => cases ht
      | cons b' todo =>
          cases ht
          rw [List.length_cons] at hlen
          rw [ringSlot_add]
          exact ⟨rfl, by omega⟩

/-- The consumer loads next a byte of the first frame. -/
theorem Reading.nextOp_loadData {R L W : ℕ}
    {t : Thread RingOp.Res (List UInt8) (Option ℕ × List UInt8)} {a : Usize}
    (h : Reading n R L W q t) (ht : t.nextOp = some (.loadData a)) :
    ∃ j, j < ringBytes q ∧ a = ringSlot n (R + j) := by
  cases h with
  | idle => cases ht
  | start out => cases ht
  | loaded out w hR hW => cases ht
  | lo out hq =>
      obtain ⟨p, q', rfl⟩ := List.exists_cons_of_ne_nil hq
      cases ht
      exact ⟨0, by rw [ringBytes_cons]; omega, rfl⟩
  | hi out p q' hq =>
      subst hq
      cases ht
      exact ⟨1, by rw [ringBytes_cons]; omega, (ringSlot_add n R 1).symm⟩
  | body out p q' hq hfit i hi =>
      subst hq
      rcases hi.lt_or_eq with hlt | rfl
      · rw [readBody_lt hlt] at ht
        cases ht
        refine ⟨2 + i, by rw [ringBytes_cons]; omega, ?_⟩
        rw [ringSlot_payload, Nat.add_assoc]
      · rw [readBody_self] at ht; cases ht
  | skip out p q' hq hbig => cases ht

/-- **A queue, access by access.**  In every interleaving, as long as fewer than `2^32` ring bytes
are written: the consumer loads only bytes of published frames; the producer stores only where no
published frame has a byte; and the frames consumed are a prefix of those accepted, byte for byte,
none discarded but for its length. -/
theorem link_fifo (ring : Ring) (s : Link) (h : (link bufSize ring).Reachable s)
    (hw : s.written < 2 ^ 32) :
    (∀ a, s.consumer.nextOp = some (.loadData a) →
      s.Published bufSize a ∧ ¬ s.Unpublished bufSize a) ∧
    (∀ a b, s.producer.nextOp = some (.storeData a b) →
      s.Unpublished bufSize a ∧ ¬ s.Published bufSize a) ∧
    s.consumed.map Taken.payload <+: s.accepted ∧
    ∀ p L, .discarded p L ∈ s.consumed → L < p.length := by
  obtain ⟨R, q, part, hi⟩ := linkInv_of_reachable (by decide) h hw
  obtain ⟨hR, hW⟩ := hi.idx_toNat hw
  refine ⟨?_, ?_, ?_, hi.oversized⟩
  · intro a ha
    obtain ⟨j, hj, rfl⟩ := hi.consumer.nextOp_loadData ha
    have hp : s.Published bufSize (ringSlot bufSize (R + j)) := ⟨R + j, by omega, by omega, rfl⟩
    exact ⟨hp, published_ne_unpublished hp⟩
  · intro a b hab
    obtain ⟨rfl, hlt⟩ := hi.producer.nextOp_storeData hab
    have hend := hi.end_eq
    have hwr := hi.written
    have hu : s.Unpublished bufSize (ringSlot bufSize (R + ringBytes q + part.length)) :=
      ⟨R + ringBytes q + part.length, by omega, by omega, by omega, rfl⟩
    exact ⟨hu, fun hp => published_ne_unpublished hp hu⟩
  · rw [hi.accepted]
    exact List.prefix_append _ _

/-- The second frame's header half stored while the first frame's is about to be loaded. -/
def overlap : List LinkAct :=
  [.write [7], .producer, .producer, .producer, .producer, .producer, .producer, .read [0],
    .consumer, .consumer, .write [8], .producer, .producer, .producer]

theorem link_fifo_overlap :
    ∃ s, (link bufSize ⟨5, 9, fun _ => 0⟩).run overlap = some s ∧
      s.consumer.nextOp = some (.loadData 0) ∧ s.Published bufSize 0 ∧
      s.producer.nextOp = some (.storeData 4 0) ∧ ¬ s.Published bufSize 4 := by
  obtain ⟨s, hs, hw, hc, hp⟩ := (link bufSize ⟨5, 9, fun _ => 0⟩).exists_of_run overlap
    (fun s => s.written = 4 ∧ s.consumer.nextOp = some (.loadData 0) ∧
      s.producer.nextOp = some (.storeData 4 0)) (by decide)
  obtain ⟨hload, hstore, -, -⟩ := link_fifo _ s ⟨overlap, hs⟩ (by rw [hw]; decide)
  exact ⟨s, hs, hc, (hload 0 hc).1, hp, (hstore 4 0 hp).2⟩

end NrfHciUsb
