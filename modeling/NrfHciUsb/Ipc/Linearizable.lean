import NrfHciUsb.Ipc.LinkInv
import NrfHciUsb.Ipc.Queue
import NrfHciUsb.Support.Linearizable

/-!
# Ipc — Linearizable

A ring between the two cores, access by access, is the queue of whole calls.  A call that finds a
frame, or publishes one, is performed with its last access; a refused write with the load of
`read_idx`; a read of an empty ring with its load of `write_idx`, since the producer may have
published a frame by the time the call returns.

`link_simulates`: so the queue follows the accesses, and its callers see the same.
-/

namespace NrfHciUsb
open Support

/-- The ends of a ring. -/
inductive Side where
  | producer
  | consumer
  deriving DecidableEq, Repr

/-- What a queue does for a call from either end. -/
def queueOp (n : Usize) (_ : Side) (c : RingCall) (q : FrameQueue n) : RingResult × FrameQueue n :=
  FrameQueue.call q c

abbrev RingEvent := CallEvent Side RingCall RingResult

/-- The return of `rb_write`. -/
def wroteBack (payload : List UInt8) (result : Option Bool) : List RingEvent :=
  result.toList.map fun ok => .reply .producer (.write payload) (.wrote ok)

/-- The return of `rb_read`. -/
def readBack (out : List UInt8) (result : Option (Option ℕ × List UInt8)) : List RingEvent :=
  result.toList.map fun r => .reply .consumer (.read out) (.readBack r.1 r.2)

/-- What the callers see of a step. -/
def Link.shows (n : Usize) (s : Link) : LinkAct → List RingEvent
  | .write payload =>
      .call .producer (.write payload) ::
        wroteBack payload (Thread.settle payload (rbWrite n payload)).2
  | .read out => .call .consumer (.read out) :: readBack out (Thread.settle out (rbRead n out)).2
  | .producer =>
      match s.producer.step Ring.perform s.ring with
      | some (e, _, _) => wroteBack e.input e.result
      | none => []
  | .consumer =>
      match s.consumer.step Ring.perform s.ring with
      | some (e, _, _) => readBack e.input e.result
      | none => []

/-! ### The producer's call -/

/-- A write is performed when it returns. -/
inductive WritePort : Thread RingOp.Res (List UInt8) Bool → Port RingCall RingResult → Prop where
  | idle : WritePort .idle .idle
  | running (p : List UInt8) (rest : RingProg Bool) :
      WritePort (.running p rest) (.called (.write p))

theorem WritePort.of_idle {p : Port RingCall RingResult} (h : WritePort .idle p) : p = .idle := by
  cases h
  rfl

theorem WritePort.of_running {payload : List UInt8} {rest : RingProg Bool}
    {p : Port RingCall RingResult} (h : WritePort (.running payload rest) p) :
    p = .called (.write payload) := by
  cases h
  rfl

variable {n : Usize} {W R L : ℕ} {q : List (List UInt8)}

/-- A write that is refused after its loads finds no room in the queue. -/
theorem Writing.refused {t t' : Thread RingOp.Res (List UInt8) Bool} {part : List UInt8}
    {m m' : Ring} {e : Thread.Event RingOp (List UInt8) Bool} (h : Writing n W R t part)
    (hR : m.readIdx = UInt32.ofNat R) (hle : R ≤ W) (hused : W ≤ R + n.toNat)
    (hs : t.step Ring.perform m = some (e, t', m')) (hres : e.result = some false) :
    n.toNat < W - R + (2 + e.input.length) := by
  cases h with
  | idle => cases hs
  | start p hp =>
      rw [rbWrite_eq hp] at hs
      cases hs
      cases hres
  | loaded p =>
      have hn := n.toNat_lt
      have hd : (UInt32.ofNat W - UInt32.ofNat R).toNat = W - R := by
        obtain ⟨k, rfl⟩ := Nat.exists_eq_add_of_le hle
        rw [ofNat_add_sub_toNat (by omega), Nat.add_sub_cancel_left]
      have hfree : (n - (UInt32.ofNat W - UInt32.ofNat R)).toNat = n.toNat - (W - R) := by
        rw [UInt32.toNat_sub_of_le, hd]
        rw [UInt32.le_iff_toNat_le, hd]
        omega
      simp only [Thread.step_running, Ring.perform, Option.some.injEq, Prod.mk.injEq, hR,
        writeChecked, hfree] at hs
      obtain ⟨rfl, -, -⟩ := hs
      by_cases hroom : n.toNat - (W - R) < 2 + p.length
      · dsimp only
        omega
      · simp [hroom, frame, storeFrom, Thread.settle] at hres
  | storing p _ todo hf hroom =>
      cases todo with
      | nil =>
          cases hs
          cases hres
      | cons b todo =>
          cases hs
          cases todo <;> cases hres

/-! ### The consumer's call -/

/-- The next access is one to a frame: the ring was found not to be empty. -/
def InFrame (t : Thread RingOp.Res (List UInt8) (Option ℕ × List UInt8)) : Prop :=
  ∃ o, t.nextOp = some o ∧ o ≠ .loadWriteIdx ∧ o ≠ .loadReadIdx

/-- With the consumer at `R`, a read is performed when it returns, unless the `write_idx` it has
loaded is that of an empty ring. -/
inductive ReadPort (n : Usize) (R : ℕ) :
    Thread RingOp.Res (List UInt8) (Option ℕ × List UInt8) → Port RingCall RingResult → Prop where
  | idle : ReadPort n R .idle .idle
  | start (out : List UInt8) : ReadPort n R (.running out (rbRead n out)) (.called (.read out))
  | sawFrame (out : List UInt8) (w : UInt32) (hw : w ≠ UInt32.ofNat R) :
      ReadPort n R (.running out (.vis .loadReadIdx (readChecked n out w))) (.called (.read out))
  | sawEmpty (out : List UInt8) :
      ReadPort n R (.running out (.vis .loadReadIdx (readChecked n out (UInt32.ofNat R))))
        (.answered (.read out) (.readBack none out))
  | inFrame (out : List UInt8) (rest : RingProg (Option ℕ × List UInt8))
      (h : InFrame (.running out rest)) : ReadPort n R (.running out rest) (.called (.read out))

theorem ReadPort.of_idle {p : Port RingCall RingResult} (h : ReadPort n R .idle p) : p = .idle := by
  cases h
  rfl

theorem inFrame_loadData (out : List UInt8) (a : Usize)
    (k : UInt8 → RingProg (Option ℕ × List UInt8)) :
    InFrame (.running out (.vis (.loadData a) k)) :=
  ⟨_, rfl, by simp, by simp⟩

theorem inFrame_readBody {r : Usize} {k i : ℕ} (h : i ≤ k) (out out' : List UInt8) :
    InFrame (.running out (readBody n r k i out')) := by
  rcases h.lt_or_eq with hlt | rfl
  · rw [readBody_lt hlt]
    exact inFrame_loadData _ _ _
  · rw [readBody_self]
    exact ⟨_, rfl, nofun, nofun⟩

/-- A read in a frame stays in it until it releases the frame. -/
theorem Reading.inFrame_step {t t' : Thread RingOp.Res (List UInt8) (Option ℕ × List UInt8)}
    {m m' : Ring} {e : Thread.Event RingOp (List UInt8) (Option ℕ × List UInt8)}
    (h : Reading n R L W q t) (ht : InFrame t) (hs : t.step Ring.perform m = some (e, t', m'))
    (hop : ∀ v, e.op ≠ .storeReadIdx v) : e.result = none ∧ InFrame t' := by
  cases h with
  | idle => cases hs
  | start out =>
      obtain ⟨o, ho, hne, -⟩ := ht
      cases ho
      exact absurd rfl hne
  | loaded out w hL hW =>
      obtain ⟨o, ho, -, hne⟩ := ht
      cases ho
      exact absurd rfl hne
  | lo out hq =>
      cases hs
      exact ⟨rfl, inFrame_loadData _ _ _⟩
  | hi out p q' hq =>
      simp only [Thread.step_running, Ring.perform, Option.some.injEq, Prod.mk.injEq] at hs
      obtain ⟨rfl, rfl, -⟩ := hs
      dsimp only [readLen]
      split
      · exact ⟨rfl, _, rfl, by simp, by simp⟩
      · rw [settle_readBody (Nat.zero_le _)]
        exact ⟨rfl, inFrame_readBody (Nat.zero_le _) _ _⟩
  | body out p q' hq hfit i hi =>
      rcases hi.lt_or_eq with hlt | rfl
      · rw [readBody_lt hlt] at hs
        simp only [Thread.step_running, Option.some.injEq, Prod.mk.injEq,
          settle_readBody (Nat.succ_le_of_lt hlt)] at hs
        obtain ⟨rfl, rfl, -⟩ := hs
        exact ⟨rfl, inFrame_readBody hlt _ _⟩
      · rw [readBody_self] at hs
        cases hs
        exact absurd rfl (hop _)
  | skip out p q' hq hbig =>
      cases hs
      exact absurd rfl (hop _)

/-- **A load.**  The read goes on; it has loaded the `write_idx` of an empty ring; or it returns,
having loaded that before. -/
theorem ReadPort.load {t t' : Thread RingOp.Res (List UInt8) (Option ℕ × List UInt8)} {m m' : Ring}
    {e : Thread.Event RingOp (List UInt8) (Option ℕ × List UInt8)} {p : Port RingCall RingResult}
    (h : ReadPort n R t p) (hread : Reading n R L W q t) (hm : Contents n m R q)
    (hs : t.step Ring.perform m = some (e, t', m')) (hop : ∀ v, e.op ≠ .storeReadIdx v) :
    (e.result = none ∧ p = .called (.read e.input) ∧
      (ReadPort n R t' p ∨
        q = [] ∧ ReadPort n R t' (.answered (.read e.input) (.readBack none e.input)))) ∨
    (e.result = some (none, e.input) ∧ t' = .idle ∧
      p = .answered (.read e.input) (.readBack none e.input)) := by
  cases h with
  | idle => cases hs
  | start out =>
      rw [rbRead_eq] at hs
      simp only [Thread.step_running, Thread.settle, Ring.perform, Option.some.injEq,
        Prod.mk.injEq] at hs
      obtain ⟨rfl, rfl, -⟩ := hs
      refine .inl ⟨rfl, rfl, ?_⟩
      by_cases hq : q = []
      · rw [hm.idx_eq_iff.mpr hq, hm.readIdx]
        exact .inr ⟨hq, .sawEmpty out⟩
      · refine .inl (.sawFrame out _ ?_)
        rw [← hm.readIdx]
        exact mt hm.idx_eq_iff.mp hq
  | sawFrame out w hw =>
      simp only [Thread.step_running, Ring.perform, hm.readIdx, readChecked, hw, if_false,
        Option.some.injEq, Prod.mk.injEq] at hs
      obtain ⟨rfl, rfl, -⟩ := hs
      exact .inl ⟨rfl, rfl, .inl (.inFrame out _ (inFrame_loadData _ _ _))⟩
  | sawEmpty out =>
      simp only [Thread.step_running, Ring.perform, hm.readIdx, readChecked, if_true,
        Option.some.injEq, Prod.mk.injEq] at hs
      obtain ⟨rfl, rfl, -⟩ := hs
      exact .inr ⟨rfl, rfl, rfl⟩
  | inFrame out rest hin =>
      obtain ⟨hres, hin'⟩ := hread.inFrame_step hin hs hop
      obtain ⟨k, hrun, -, hset⟩ := Thread.step_eq_some _ hs
      obtain ⟨rfl, -⟩ := Thread.running.inj hrun
      rw [hres] at hset
      obtain ⟨rest', rfl⟩ := Thread.of_settle_none hset
      exact .inl ⟨hres, rfl, .inl (.inFrame _ _ hin')⟩

/-- The release of a frame. -/
theorem ReadPort.release {t t' : Thread RingOp.Res (List UInt8) (Option ℕ × List UInt8)}
    {m m' : Ring} {e : Thread.Event RingOp (List UInt8) (Option ℕ × List UInt8)}
    {p : Port RingCall RingResult} {v : UInt32} (h : ReadPort n R t p)
    (hs : t.step Ring.perform m = some (e, t', m')) (hop : e.op = .storeReadIdx v) :
    p = .called (.read e.input) := by
  obtain ⟨k, hrun, -, -⟩ := Thread.step_eq_some _ hs
  obtain ⟨input, op, result⟩ := e
  cases hop
  cases h with
  | idle => cases hrun
  | start out | sawFrame out w hw | inFrame out rest hin =>
      rw [(Thread.running.inj hrun).1]
  | sawEmpty out => cases hrun

/-! ### What an access does to the queue -/

/-- What the queue refuses it leaves as it is. -/
theorem FrameQueue.send_refused {q : FrameQueue n} {p : List UInt8}
    (h : n.toNat < ringBytes q.items + (2 + p.length)) : q.send p = (false, q) := by
  rcases q.send_cases p with ⟨-, hitems⟩ | ⟨hok, hsame, -⟩
  · have hfits : ringBytes (q.send p).2.items ≤ n.toNat := (q.send p).2.fits
    rw [hitems, ringBytes_append, ringBytes_cons, ringBytes_nil] at hfits
    omega
  · exact Prod.ext hok hsame

/-- An access of a write does nothing to the queue, or with the last one it does the whole call. -/
theorem LinkInv.producer_queue {s : Link} {q : FrameQueue n} {part : List UInt8}
    {e : Thread.Event RingOp (List UInt8) Bool} {th : Thread RingOp.Res (List UInt8) Bool}
    {m : Ring}
    (h : LinkInv n s R q.items part) (hst : s.producer.step Ring.perform s.ring = some (e, th, m))
    (hw : (s.produced e th m).written < 2 ^ 32) :
    ∃ part', (e.result = none ∧ LinkInv n (s.produced e th m) R q.items part') ∨
      ∃ ok q', e.result = some ok ∧ q.send e.input = (ok, q') ∧
        LinkInv n (s.produced e th m) R q'.items part' := by
  obtain ⟨items, part', hlink, hsame⟩ := h.producer_step hst hw
  refine ⟨part', ?_⟩
  cases hres : e.result with
  | none =>
      obtain rfl := hsame (by simp [hres])
      exact .inl ⟨rfl, hlink⟩
  | some ok =>
      refine .inr ⟨ok, (q.send e.input).2, rfl, ?_⟩
      cases ok with
      | false =>
          -- the room the producer has found is at most what there is
          have hfits := h.contents.fits
          have hfull := h.producer.refused h.contents.readIdx (by omega) (by omega) hst hres
          obtain rfl := hsame (by simp [hres])
          rw [FrameQueue.send_refused (by omega)]
          exact ⟨rfl, hlink⟩
      | true =>
          have hitems : items = q.items ++ [e.input] := by
            simpa [Link.produced, hres, h.accepted] using hlink.accepted.symm
          subst hitems
          rcases q.send_cases e.input with ⟨hok, hsent⟩ | ⟨-, -, hfull⟩
          · rw [hsent]
            exact ⟨Prod.ext hok rfl, hlink⟩
          · have hfits := hlink.contents.fits
            rw [ringBytes_append, ringBytes_cons, ringBytes_nil] at hfits
            omega

/-- An access of a read of `out`, its result, where the call is before and after it, and what is
left of the queue `q`: a load, which may find the ring empty, the load after that, or the release of
a frame. -/
inductive ReadAccess (q : FrameQueue n) (out : List UInt8) :
    Option (Option ℕ × List UInt8) → Port RingCall RingResult → Port RingCall RingResult →
      FrameQueue n → Prop where
  | load : ReadAccess q out none (.called (.read out)) (.called (.read out)) q
  | empty (hempty : q.items = []) : ReadAccess q out none (.called (.read out))
      (.answered (.read out) (.readBack none out)) q
  | back : ReadAccess q out (some (none, out)) (.answered (.read out) (.readBack none out)) .idle q
  | release (f : List UInt8) (q' : FrameQueue n) (hitems : q.items = f :: q'.items)
      (hrecv : q.recv out = (received f out, q')) :
      ReadAccess q out (some (received f out)) (.called (.read out)) .idle q'

theorem LinkInv.consumer_queue (hn : n.toNat ≤ 65537) {s : Link} {q : FrameQueue n}
    {part : List UInt8} {e : Thread.Event RingOp (List UInt8) (Option ℕ × List UInt8)}
    {th : Thread RingOp.Res (List UInt8) (Option ℕ × List UInt8)} {m : Ring}
    {p : Port RingCall RingResult} (h : LinkInv n s R q.items part)
    (hr : ReadPort n R s.consumer p)
    (hst : s.consumer.step Ring.perform s.ring = some (e, th, m)) :
    ∃ R' p' q', ReadAccess q e.input e.result p p' q' ∧
      LinkInv n (s.consumedBy n e th m) R' q'.items part ∧ ReadPort n R' th p' := by
  obtain ⟨R', items, hlink, hsame⟩ := h.consumer_step hn hst
  rcases h.consumer.step h.contents rfl le_rfl (Nat.le_add_right _ _) hn hst with
    ⟨rfl, -, hop, -⟩ | ⟨f, rest, hq, hop, rfl, rfl, hres⟩
  · -- a load
    obtain ⟨rfl, rfl⟩ := hsame hop
    rcases hr.load h.consumer h.contents hst hop with
      ⟨hres, rfl, hnext | ⟨hempty, hnext⟩⟩ | ⟨hres, rfl, rfl⟩
    · rw [hres]
      exact ⟨R', _, q, .load, hlink, hnext⟩
    · rw [hres]
      exact ⟨R', _, q, .empty hempty, hlink, hnext⟩
    · rw [hres]
      exact ⟨R', _, q, .back, hlink, .idle⟩
  · -- the store of `read_idx`
    obtain rfl := hr.release hst hop
    obtain ⟨x, hx⟩ : ∃ x, s.ring.taken n e = some x := by
      rcases hres with ⟨-, hres⟩ | ⟨-, hres⟩ <;> simp [Ring.taken, hop, hres]
    have hrest : rest = items := by
      have hacc := hlink.accepted
      rw [Link.consumedBy, hx, Option.toList_some, List.map_append, List.map_singleton,
        h.accepted, hq, List.append_assoc] at hacc
      exact (List.cons.inj (List.append_cancel_left hacc)).2
    subst hrest
    have hreceived : e.result = some (received f e.input) := by
      rcases hres with ⟨hfit, hres⟩ | ⟨hbig, hres⟩
      · rw [hres, received, if_pos hfit]
      · rw [hres, received, if_neg (by omega)]
    rcases q.recv_cases e.input with ⟨hnil, -⟩ | ⟨f', q', hitems, hrecv⟩
    · rw [hnil] at hq
      cases hq
    · rw [hitems] at hq
      obtain ⟨rfl, rfl⟩ := List.cons.inj hq
      rw [hreceived]
      exact ⟨R', _, q', .release f' q' hitems hrecv, hlink, .idle⟩

/-! ### The simulation -/

/-- The queue with its two callers. -/
def queueServer (n : Usize) :
    Machine (Server Side RingCall RingResult (FrameQueue n)) (ServerAct Side RingCall) :=
  server (queueOp n) Fifo.empty

/-- The queue holds the frames published and not released, and each call is where it is in the
accesses. -/
def LinkMatches (n : Usize) (s : Link) (t : Server Side RingCall RingResult (FrameQueue n)) :
    Prop :=
  ∃ R part, LinkInv n s R t.state.items part ∧ WritePort s.producer (t.port .producer) ∧
    ReadPort n R s.consumer (t.port .consumer)

theorem linkMatches_init (n : Usize) (ring : Ring) :
    LinkMatches n (link n ring).init (queueServer n).init :=
  ⟨0, [], linkInv_init n ring, .idle, .idle⟩

theorem queueOp_write {q q' : FrameQueue n} {p : List UInt8} {ok : Bool}
    (h : q.send p = (ok, q')) : queueOp n .producer (.write p) q = (.wrote ok, q') := by
  rw [queueOp, FrameQueue.call, h]

theorem queueOp_read {q q' : FrameQueue n} {out : List UInt8} {r : Option ℕ × List UInt8}
    (h : q.recv out = (r, q')) :
    queueOp n .consumer (.read out) q = (.readBack r.1 r.2, q') := by
  rw [queueOp, FrameQueue.call, h]

variable {s s' : Link} {t : Server Side RingCall RingResult (FrameQueue n)}

theorem LinkMatches.write (h : LinkMatches n s t) {payload : List UInt8}
    (hs : s.step n (.write payload) = some s') :
    ∃ t', (queueServer n).Shows Server.shows t (s.shows n (.write payload)) t' ∧
      LinkMatches n s' t' := by
  obtain ⟨R, part, hlink, hw, hr⟩ := h
  have hlink' := hlink.write hs
  obtain ⟨th, hst, rfl⟩ := Option.map_eq_some_iff.mp hs
  obtain ⟨hidle, rfl⟩ := Thread.start_eq_some hst
  rw [hidle] at hw
  have hport := hw.of_idle
  have hcall := @server_call _ _ _ _ _ (queueOp n) Fifo.empty t .producer (.write payload) hport
  by_cases hfit : 2 + payload.length ≤ n.toNat
  · rw [Link.shows, rbWrite_eq hfit]
    rw [rbWrite_eq hfit] at hlink'
    exact ⟨_, hcall, R, part, hlink', .running payload _, hr⟩
  · -- refused without an access
    have hrefused := queueOp_write (@FrameQueue.send_refused n t.state payload (by omega))
    have hdone := @server_perform_reply _ _ _ _ _ (queueOp n) Fifo.empty
      { t with port := Function.update t.port .producer (.called (.write payload)) } .producer
      (.write payload) (by simp)
    rw [Function.update_idem, hrefused] at hdone
    rw [Link.shows, rbWrite_eq_ret (by omega)]
    rw [rbWrite_eq_ret (by omega)] at hlink'
    exact ⟨_, hcall.trans hdone, R, part, hlink', .idle, hr⟩

theorem LinkMatches.read (h : LinkMatches n s t) {out : List UInt8}
    (hs : s.step n (.read out) = some s') :
    ∃ t', (queueServer n).Shows Server.shows t (s.shows n (.read out)) t' ∧
      LinkMatches n s' t' := by
  obtain ⟨R, part, hlink, hw, hr⟩ := h
  have hlink' := hlink.read hs
  obtain ⟨th, hst, rfl⟩ := Option.map_eq_some_iff.mp hs
  obtain ⟨hidle, rfl⟩ := Thread.start_eq_some hst
  rw [hidle] at hr
  have hport := hr.of_idle
  have hcall := @server_call _ _ _ _ _ (queueOp n) Fifo.empty t .consumer (.read out) hport
  exact ⟨_, hcall, R, part, hlink', hw, .start out⟩

theorem LinkMatches.producer (h : LinkMatches n s t) (hs : s.step n .producer = some s')
    (hw : s'.written < 2 ^ 32) :
    ∃ t', (queueServer n).Shows Server.shows t (s.shows n .producer) t' ∧ LinkMatches n s' t' := by
  obtain ⟨R, part, hlink, hwp, hr⟩ := h
  obtain ⟨⟨e, th, m⟩, hst, rfl⟩ := Option.map_eq_some_iff.mp hs
  obtain ⟨k, hrun, -, hset⟩ := Thread.step_eq_some _ hst
  have hshow : s.shows n .producer = wroteBack e.input e.result := by simp [Link.shows, hst]
  have hport : t.port .producer = .called (.write e.input) := by
    rw [hrun] at hwp
    exact hwp.of_running
  rw [hshow]
  obtain ⟨part', ⟨hres, hlink'⟩ | ⟨ok, q', hres, hsend, hlink'⟩⟩ := hlink.producer_queue hst hw
  · rw [hres] at hset ⊢
    obtain ⟨rest, rfl⟩ := Thread.of_settle_none hset
    exact ⟨t, .refl t, R, part', hlink', hport ▸ .running e.input rest, hr⟩
  · have hdone := @server_perform_reply _ _ _ _ _ (queueOp n) Fifo.empty t .producer _ hport
    rw [queueOp_write hsend] at hdone
    rw [hres] at hset ⊢
    obtain rfl := Thread.of_settle_some hset
    exact ⟨_, hdone, R, part', hlink', .idle, hr⟩

theorem LinkMatches.consumer (hn : n.toNat ≤ 65537) (h : LinkMatches n s t)
    (hs : s.step n .consumer = some s') :
    ∃ t', (queueServer n).Shows Server.shows t (s.shows n .consumer) t' ∧ LinkMatches n s' t' := by
  obtain ⟨R, part, hlink, hwp, hr⟩ := h
  obtain ⟨⟨e, th, m⟩, hst, rfl⟩ := Option.map_eq_some_iff.mp hs
  obtain ⟨R', p', q', hacc, hlink', hr'⟩ := hlink.consumer_queue hn hr hst
  have hshow : s.shows n .consumer = readBack e.input e.result := by simp [Link.shows, hst]
  rw [hshow]
  generalize hp : t.port .consumer = p at hacc
  generalize hres : e.result = res at hacc
  cases hacc with
  | load => exact ⟨t, .refl t, R', part, hlink', hwp, by rwa [hp]⟩
  | empty hempty =>
      have hperform := @server_perform _ _ _ _ _ (queueOp n) Fifo.empty t .consumer _ hp
      have hrecv : t.state.recv e.input = ((none, e.input), t.state) := by
        rcases t.state.recv_cases e.input with ⟨-, hrecv⟩ | ⟨f, q₁, hitems, -⟩
        · exact hrecv
        · rw [hitems] at hempty
          cases hempty
      rw [queueOp_read hrecv] at hperform
      exact ⟨_, hperform, R', part, hlink', hwp, hr'⟩
  | back =>
      have hreply := @server_reply _ _ _ _ _ (queueOp n) Fifo.empty t .consumer _ _ hp
      exact ⟨_, hreply, R', part, hlink', hwp, hr'⟩
  | release f q' hitems hrecv =>
      have hdone := @server_perform_reply _ _ _ _ _ (queueOp n) Fifo.empty t .consumer _ hp
      rw [queueOp_read hrecv] at hdone
      exact ⟨_, hdone, R', part, hlink', hwp, hr'⟩

theorem link_simulates (hn : n.toNat ≤ 65537) (ring : Ring) :
    Simulates (link n ring) (Link.shows n) (queueServer n) Server.shows
      (fun s => s.written < 2 ^ 32) (LinkMatches n) where
  init := linkMatches_init n ring
  back s a s' hs hw := (written_le hs).trans_lt hw
  step s a s' t hs hw h := by
    cases a with
    | write payload => exact h.write hs
    | read out => exact h.read hs
    | producer => exact h.producer hs hw
    | consumer => exact h.consumer hn hs

end NrfHciUsb
