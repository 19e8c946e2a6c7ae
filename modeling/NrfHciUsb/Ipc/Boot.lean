import NrfHciUsb.Ipc.Duplex

/-!
# Ipc — Boot

What `main` of the app core does before either core uses the rings: it opens the shared memory to
the network core, one region of the RAM after the other, runs `ipc_init`, releases the network core
and spawns its own tasks.

The network core is a non-secure master.  Of the SPU it is assumed that it answers an access of
such a master to a secure region, or one that the region does not permit, with a bus fault.

* `Boot.not_faults`: no access to a ring is one of these, once the regions are open.
* `boot_linearizable`: from reset on, whatever the SPU and the memory hold, the network core never
  faults, and what comes before `ipc_init` does not show in the calls on the rings.
-/

namespace NrfHciUsb
open Support

/-! ### The SPU -/

/-- What `ramregion(i).perm()` holds. -/
structure RamPerm where
  read : Bool
  write : Bool
  secattr : Bool
  deriving DecidableEq, Repr

/-- What `main` writes to it. -/
def ipcPerm : RamPerm := ⟨true, true, false⟩

/-- Whether a non-secure master may make the access. -/
def RamPerm.allows (p : RamPerm) : RingOp → Bool
  | .loadWriteIdx | .loadReadIdx | .loadData _ => !p.secattr && p.read
  | .storeWriteIdx _ | .storeReadIdx _ | .storeData _ _ => !p.secattr && p.write

/-- The region of an address: the RAM of the app core is divided into regions of 8 KiB. -/
def ramRegionOf (a : Usize) : ℕ := (a.toNat - 0x20000000) / (8 * 1024)

/-! ### The cores -/

inductive Core where
  | app
  | net
  deriving DecidableEq, Repr

/-- The core at whose end of a ring something happens. -/
def coreOf : Dir × LinkAct → Core
  | (.n2a, .write _) | (.n2a, .producer) | (.a2n, .read _) | (.a2n, .consumer) => .net
  | (.a2n, .write _) | (.a2n, .producer) | (.n2a, .read _) | (.n2a, .consumer) => .app

/-- The access, if it is one. -/
def Duplex.nextOp (s : Duplex) : Dir × LinkAct → Option RingOp
  | (d, .producer) => (s.ends d).producer.nextOp
  | (d, .consumer) => (s.ends d).consumer.nextOp
  | (_, .write _) | (_, .read _) => none

/-- Where `main` is: in the loop over the regions, with `i` to come, or about to run `ipc_init`, to
release the network core or to spawn the tasks that use the rings. -/
inductive BootPc where
  | ramRegion (i : ℕ)
  | ipcInit
  | release
  | spawn
  | running
  deriving DecidableEq, Repr

def BootPc.released : BootPc → Bool
  | .ramRegion _ | .ipcInit | .release => false
  | .spawn | .running => true

structure Boot where
  pc : BootPc
  spu : ℕ → RamPerm
  fault : Bool
  rings : Duplex

/-- The SPU does not let the network core do it. -/
def Boot.faults (s : Boot) (x : Dir × LinkAct) : Bool :=
  match s.rings.nextOp x with
  | some o => (o.addrs x.1.base).any fun a => !(s.spu (ramRegionOf a)).allows o
  | none => false

/-- The next step of `main`, or something at a ring. -/
inductive BootAct where
  | main
  | ring (x : Dir × LinkAct)

def Boot.step (s : Boot) : BootAct → Option Boot
  | .main =>
      match s.pc with
      | .ramRegion i =>
          if i ≤ 31 then
            some { s with spu := Function.update s.spu i ipcPerm, pc := .ramRegion (i + 1) }
          else some { s with pc := .ipcInit }
      | .ipcInit =>
          some { s with rings := { s.rings with mem := s.rings.mem.ipcInit }, pc := .release }
      | .release => some { s with pc := .spawn }
      | .spawn => some { s with pc := .running }
      | .running => none
  | .ring x =>
      match coreOf x with
      | .app =>
          if s.pc = .running then (s.rings.step x).map fun rings => { s with rings := rings }
          else none
      | .net =>
          if s.pc.released ∧ s.fault = false then
            if s.faults x then some { s with fault := true }
            else (s.rings.step x).map fun rings => { s with rings := rings }
          else none

/-- From reset on, with the SPU at `spu` and the memory `m`. -/
def boot (spu : ℕ → RamPerm) (m : Shmem) : Machine Boot BootAct where
  init := ⟨.ramRegion 28, spu, false, (duplex m).init⟩
  step := Boot.step

/-- What the callers at the rings see. -/
def Boot.shows (s : Boot) : BootAct → List (CallEvent (Dir × Side) RingCall RingResult)
  | .main => []
  | .ring x => if coreOf x = .net ∧ s.faults x then [] else s.rings.shows x

/-! ### No fault -/

/-- The shared memory is in the regions that `main` opens. -/
theorem ramRegionOf_bounds {d : Dir} {a : Usize} (h : a ∈ d.region) :
    28 ≤ ramRegionOf a ∧ ramRegionOf a < 32 := by
  obtain ⟨hlo, hhi⟩ := Dir.region_bounds h
  rw [ramRegionOf]
  omega

/-- The end of the regions that are open. -/
def BootPc.opened : BootPc → ℕ
  | .ramRegion i => i
  | .ipcInit | .release | .spawn | .running => 32

theorem ipcPerm_allows (o : RingOp) : ipcPerm.allows o = true := by
  cases o <;> rfl

/-- **Open regions.**  The accesses of the calls under way are permitted. -/
theorem Boot.not_faults {s : Boot} (hopen : ∀ i, 28 ≤ i → i < 32 → s.spu i = ipcPerm)
    {l : Dir → Link} (hl : ∀ d, Follows d s.rings (l d)) (x : Dir × LinkAct) :
    s.faults x = false := by
  rw [Boot.faults]
  cases hop : s.rings.nextOp x with
  | none => rfl
  | some o =>
      obtain ⟨d, a⟩ := x
      have hin : o.InBounds := by
        have hf := hl d
        cases a with
        | write _ | read _ => cases hop
        | producer =>
            have honly := hf.producerOnly
            rw [hf.producer] at honly
            exact Thread.only_nextOp honly hop
        | consumer =>
            have honly := hf.consumerOnly
            rw [hf.consumer] at honly
            exact Thread.only_nextOp honly hop
      refine List.any_eq_false.mpr fun a ha => ?_
      obtain ⟨hlo, hhi⟩ := ramRegionOf_bounds (mem_region_of_mem_addrs hin ha)
      rw [hopen _ hlo hhi, ipcPerm_allows]
      decide

/-! ### The simulation -/

/-- Until `ipc_init` has run nobody is at the rings; from then on they are two queues. -/
structure BootMatches (m : Shmem) (s : Boot)
    (u : Server (Dir × Side) RingCall RingResult (Dir → FrameQueue bufSize)) : Prop where
  fault : s.fault = false
  opened : ∀ i, 28 ≤ i → i < s.pc.opened → s.spu i = ipcPerm
  rings : match s.pc with
    | .ramRegion _ | .ipcInit => s.rings = (duplex m).init ∧ u = queuesServer.init
    | .release | .spawn | .running => DuplexMatches s.rings u

theorem Boot.written_le {s s' : Boot} {x : BootAct} (hs : s.step x = some s') (d : Dir) :
    (s.rings.ends d).written ≤ (s'.rings.ends d).written := by
  cases x with
  | main =>
      rw [Boot.step] at hs
      cases hpc : s.pc with
      | ramRegion i =>
          rw [hpc] at hs
          dsimp only at hs
          split at hs <;> cases hs <;> exact le_rfl
      | ipcInit | release | spawn =>
          rw [hpc] at hs
          cases hs
          exact le_rfl
      | running => rw [hpc] at hs; cases hs
  | ring x =>
      rw [Boot.step] at hs
      split at hs
      · obtain ⟨-, hs⟩ := Option.ite_none_right_eq_some.mp hs
        obtain ⟨rings, hr, rfl⟩ := Option.map_eq_some_iff.mp hs
        exact Duplex.written_le hr d
      · obtain ⟨-, hs⟩ := Option.ite_none_right_eq_some.mp hs
        split at hs
        · cases hs
          exact le_rfl
        · obtain ⟨rings, hr, rfl⟩ := Option.map_eq_some_iff.mp hs
          exact Duplex.written_le hr d

variable {m : Shmem} {s s' : Boot}
  {u : Server (Dir × Side) RingCall RingResult (Dir → FrameQueue bufSize)}

/-- **A step of `main`.** -/
theorem BootMatches.main (h : BootMatches m s u) (hs : s.step .main = some s') :
    BootMatches m s' u := by
  have hrings := h.rings
  have hopened := h.opened
  rw [Boot.step] at hs
  cases hpc : s.pc with
  | ramRegion i =>
      simp only [hpc, BootPc.opened] at hs hrings hopened
      split at hs
      · cases hs
        refine ⟨h.fault, fun j hlo hhi => ?_, hrings⟩
        by_cases hj : j = i
        · subst hj
          exact Function.update_self _ _ _
        · have hlt : j < i + 1 := hhi
          exact (Function.update_of_ne hj _ _).trans (hopened j hlo (by omega))
      · cases hs
        refine ⟨h.fault, fun j hlo hhi => hopened j hlo ?_, hrings⟩
        have hlt : j < 32 := hhi
        omega
  | ipcInit =>
      simp only [hpc] at hs hrings hopened
      obtain ⟨hinit, rfl⟩ := hrings
      cases hs
      refine ⟨h.fault, hopened, ?_⟩
      show DuplexMatches { s.rings with mem := s.rings.mem.ipcInit } queuesServer.init
      rw [hinit]
      exact duplexMatches_init m
  | release | spawn =>
      simp only [hpc] at hs hrings hopened
      cases hs
      exact ⟨h.fault, hopened, hrings⟩
  | running =>
      simp only [hpc] at hs
      cases hs

/-- **A step at a ring**, which is possible only from the release on. -/
theorem BootMatches.ring (h : BootMatches m s u) {x : Dir × LinkAct}
    (hs : s.step (.ring x) = some s') :
    s.pc.released = true ∧ DuplexMatches s.rings u ∧ s.shows (.ring x) = s.rings.shows x ∧
      ∃ rings, s.rings.step x = some rings ∧ s' = { s with rings := rings } := by
  have hreleased : s.pc.released = true → DuplexMatches s.rings u ∧ s.faults x = false := by
    intro hrel
    have hrings := h.rings
    have hopened := h.opened
    cases hpc : s.pc with
    | ramRegion i => rw [hpc] at hrel; cases hrel
    | ipcInit | release => rw [hpc] at hrel; cases hrel
    | spawn | running =>
        simp only [hpc, BootPc.opened] at hrings hopened
        obtain ⟨l, t, hl, ht, hu⟩ := id hrings
        exact ⟨hrings, s.not_faults hopened hl x⟩
  rw [Boot.step] at hs
  split at hs
  · rename_i hcore
    obtain ⟨hpc, hs⟩ := Option.ite_none_right_eq_some.mp hs
    have hrel : s.pc.released = true := by rw [hpc]; rfl
    obtain ⟨rings, hr, rfl⟩ := Option.map_eq_some_iff.mp hs
    refine ⟨hrel, (hreleased hrel).1, ?_, rings, hr, rfl⟩
    rw [Boot.shows, hcore, if_neg (by simp)]
  · obtain ⟨⟨hrel, -⟩, hs⟩ := Option.ite_none_right_eq_some.mp hs
    obtain ⟨hmatch, hno⟩ := hreleased hrel
    rw [hno, if_neg (by decide)] at hs
    obtain ⟨rings, hr, rfl⟩ := Option.map_eq_some_iff.mp hs
    refine ⟨hrel, hmatch, ?_, rings, hr, rfl⟩
    rw [Boot.shows, hno, if_neg (by simp)]

theorem boot_simulates (spu : ℕ → RamPerm) (m : Shmem) :
    Simulates (boot spu m) Boot.shows queuesServer Server.shows
      (fun s => ∀ d, (s.rings.ends d).written < 2 ^ 32) (BootMatches m) where
  init := ⟨rfl, fun i hlo hhi => absurd hhi (not_lt.mpr hlo), rfl, rfl⟩
  back s x s' hs hw d := (Boot.written_le hs d).trans_lt (hw d)
  step s x s' u hs hw h := by
    cases x with
    | main => exact ⟨u, .refl u, h.main hs⟩
    | ring x =>
        obtain ⟨hrel, hmatch, hshows, rings, hr, rfl⟩ := h.ring hs
        obtain ⟨u', hu, hmatch'⟩ := (duplex_simulates m).step s.rings x rings u hr hw hmatch
        rw [hshows]
        refine ⟨u', hu, h.fault, h.opened, ?_⟩
        cases hpc : s.pc with
        | ramRegion i => rw [hpc] at hrel; cases hrel
        | ipcInit | release => rw [hpc] at hrel; cases hrel
        | spawn | running => exact hmatch'

/-- **From reset on.**  Whatever the SPU and the memory hold at reset, and however the steps of
`main` and those at the four ends of the rings interleave, the network core never faults, and the
calls are linearizable, as calls on two empty queues, until `2^32` bytes have been written to a
ring. -/
theorem boot_linearizable (spu : ℕ → RamPerm) (m : Shmem) (as : List BootAct) (s : Boot)
    (hrun : (boot spu m).run as = some s) (hw : ∀ d, (s.rings.ends d).written < 2 ^ 32) :
    s.fault = false ∧ Linearizable (sideBySide (queueOp bufSize)) (fun _ : Dir => Fifo.empty)
      ((boot spu m).shown Boot.shows (boot spu m).init as) := by
  have hshows := Machine.shows_of_runFrom Boot.shows hrun
  obtain ⟨u, hu, hmatch⟩ := (boot_simulates spu m).shows hshows hw (boot_simulates spu m).init
  exact ⟨hmatch.fault, u, hu⟩

/-- The boot, with the network core at the A→N ring before the tasks of the app core are spawned,
and then `overtaken`. -/
def bootOvertaken : List BootAct :=
  List.replicate 7 .main ++ .ring (.a2n, .read []) :: .main :: overtaken.map .ring

/-- Over a corrupted memory, with all of the RAM closed to the network core. -/
theorem boot_linearizable_overtaken :
    ∃ s, (boot (fun _ => ⟨false, false, true⟩) corrupted).run bootOvertaken = some s ∧
      s.fault = false ∧
      Linearizable (sideBySide (queueOp bufSize)) (fun _ : Dir => Fifo.empty)
        [.call (.a2n, .consumer) (.read []), .call (.n2a, .consumer) (.read [0]),
          .call (.n2a, .producer) (.write [4]), .call (.a2n, .producer) (.write []),
          .reply (.a2n, .producer) (.write []) (.wrote true),
          .reply (.n2a, .producer) (.write [4]) (.wrote true),
          .reply (.n2a, .consumer) (.read [0]) (.readBack none [0])] := by
  obtain ⟨s, hs, hn, ha⟩ := (boot (fun _ => ⟨false, false, true⟩) corrupted).exists_of_run
    bootOvertaken (fun s => (s.rings.ends .n2a).written = 3 ∧ (s.rings.ends .a2n).written = 2)
    (by decide +kernel)
  obtain ⟨hfault, hlin⟩ := boot_linearizable _ corrupted bootOvertaken s hs (by
    intro d
    cases d with
    | n2a => rw [hn]; decide
    | a2n => rw [ha]; decide)
  exact ⟨s, hs, hfault, hlin⟩

end NrfHciUsb
