import Mathlib.Algebra.BigOperators.Group.Finset.Piecewise
import Mathlib.Algebra.Order.BigOperators.Group.Finset
import SengOS.Kernel.ReadLocks

/-!
# Read locks that are held

`rwlock_read_unlock` looks at `rw_read_locks` of its caller before it lowers the
counter of the lock. Beside the system stands the list of the acquisitions that
have not been released, each with its process and its lock: the counter of a
lock is to be the number of its entries.
-/

namespace SengOS

/-- The read acquisitions that have not been released: process and lock. -/
abbrev Held := List (PcbRef × Nat)

namespace Held

/-- How many of them are of lock `r`. -/
def ofLock (held : Held) (r : Nat) : Nat := held.countP fun h => h.2 == r

/-- How many of them process `p` has. -/
def ofProc (held : Held) (p : PcbRef) : Nat := held.countP fun h => h.1 == p

theorem ofLock_cons (held : Held) (p : PcbRef) (r n : Nat) :
    ofLock ((p, r) :: held) n = ofLock held n + if r = n then 1 else 0 := by
  simp [ofLock, List.countP_cons]

theorem ofProc_cons (held : Held) (p : PcbRef) (r : Nat) (q : PcbRef) :
    ofProc ((p, r) :: held) q = ofProc held q + if p = q then 1 else 0 := by
  simp [ofProc, List.countP_cons]

theorem ofLock_erase {held : Held} {p : PcbRef} {r : Nat} (h : (p, r) ∈ held) (n : Nat) :
    ofLock held n = ofLock (held.erase (p, r)) n + if r = n then 1 else 0 := by
  rw [← ofLock_cons]
  exact (List.perm_cons_erase h).countP_eq _

theorem ofProc_erase {held : Held} {p : PcbRef} {r : Nat} (h : (p, r) ∈ held) (q : PcbRef) :
    ofProc held q = ofProc (held.erase (p, r)) q + if p = q then 1 else 0 := by
  rw [← ofProc_cons]
  exact (List.perm_cons_erase h).countP_eq _

/-- Processes that go into lock `r` together. -/
theorem ofLock_admit (held : Held) (ps : List PcbRef) (r n : Nat) :
    ofLock (ps.map (·, r) ++ held) n = ofLock held n + if r = n then ps.length else 0 := by
  induction ps with
  | nil => simp
  | cons p ps ih =>
    rw [List.map_cons, List.cons_append, ofLock_cons, ih, List.length_cons]
    split <;> omega

theorem ofProc_admit (held : Held) {ps : List PcbRef} (hps : ps.Nodup) (r : Nat) (q : PcbRef) :
    ofProc (ps.map (·, r) ++ held) q = ofProc held q + if q ∈ ps then 1 else 0 := by
  induction ps with
  | nil => simp
  | cons p ps ih =>
    obtain ⟨hp, hps⟩ := List.nodup_cons.mp hps
    rw [List.map_cons, List.cons_append, ofProc_cons, ih hps]
    by_cases hq : p = q
    · subst hq
      simp [hp]
    · simp [hq, Ne.symm hq]

theorem ofLock_pos {held : Held} {p : PcbRef} {r : Nat} (h : (p, r) ∈ held) : 0 < ofLock held r :=
  List.countP_pos_iff.mpr ⟨(p, r), h, by simp⟩

theorem ofProc_pos {held : Held} {p : PcbRef} {r : Nat} (h : (p, r) ∈ held) : 0 < ofProc held p :=
  List.countP_pos_iff.mpr ⟨(p, r), h, by simp⟩

theorem ofProc_zero {held : Held} {p : PcbRef} (h : ∀ r, (p, r) ∉ held) : ofProc held p = 0 := by
  rw [ofProc, List.countP_eq_zero]
  rintro ⟨q, r⟩ hmem hq
  simp only [beq_iff_eq] at hq
  exact h r (hq ▸ hmem)

/-- Sixteen processes with a bound on each. -/
theorem length_eq (held : Held) : held.length = ∑ p : PcbRef, ofProc held p := by
  induction held with
  | nil => simp [ofProc]
  | cons h held ih =>
    obtain ⟨p, r⟩ := h
    simp only [ofProc_cons, Finset.sum_add_distrib, ← ih, List.length_cons, Finset.sum_ite_eq,
      Finset.mem_univ, if_true]

theorem ofLock_le {held : Held} (h : ∀ p, ofProc held p ≤ 255) (r : Nat) : ofLock held r ≤ 4080 := by
  have hsum : ∑ p : PcbRef, ofProc held p ≤ ∑ _p : PcbRef, 255 := Finset.sum_le_sum fun p _ => h p
  rw [← length_eq, Finset.sum_const, Finset.card_univ, Fintype.card_fin] at hsum
  exact Nat.le_trans List.countP_le_length hsum

end Held

namespace OsState

variable {s s' : OsState} {held : Held}

/-! ## The acquisitions of a run -/

/-- A section notes whom it lets in and who leaves, an unlock that is ignored that its caller left. -/
def noteHeld (s : OsState) (a : Action) (held : Held) : Held :=
  let k := s.kernel
  match a with
  | .proceed =>
    match s.here with
    | .attempt (.read r) => if (k.readAttempt r).1 = .got then (k.current, r) :: held else held
    | .release (.read r) => held.erase (k.current, r)
    | .release (.write r) => (k.leaving (k.writeRelease r) (.read r)).map (·, r) ++ held
    | _ => held
  | .unlock (.read r) => if k.mayRelease (.read r) then held else held.erase (k.current, r)
  | _ => held

/-- The runs of processes that release a lock they hold for reading, or call
while they hold no read lock at all, with 255 read locks each at most. They do
not end while they hold one, and no lock is initialised while it is in use. -/
def ReadRun (x : OsState × Held) (a : Action) : Prop :=
  x.1.CallRun a ∧ (∀ p, x.1.Ends a p → ∀ r, (p, r) ∉ x.2) ∧
    match a with
    | .rwlockInit r => x.1.Vacant r
    | .acquire (.read _) => x.2.ofProc x.1.kernel.current < 255
    | .unlock (.read r) => (x.1.kernel.current, r) ∈ x.2 ∨ ∀ n, (x.1.kernel.current, n) ∉ x.2
    | .proceed => ∀ r, x.1.here = .init (.read r) ∨ x.1.here = .init (.write r) → x.1.Vacant r
    | _ => True

/-- What the point of a process says about its read locks. -/
structure Reading (rw : Nat → Rwlock) (held : Held) (p : PcbRef) (point : Point) : Prop where
  reads : ∀ r, point = .release (.read r) → (p, r) ∈ held
  writes : ∀ r, point = .release (.write r) → (rw r).writer = some p
  fits : ∀ r, point.Tries (.read r) → held.ofProc p < 255

structure ReadAt (s : OsState) (held : Held) : Prop where
  readers : ∀ r, (s.kernel.rwlocks r).readers.toNat = held.ofLock r
  counts : ∀ p, (s.kernel.readLocks p).toNat = held.ofProc p
  exclusive : ∀ r, (s.kernel.rwlocks r).writer ≠ none → held.ofLock r = 0
  points : ∀ p, Reading s.kernel.rwlocks held p (s.point p)
  queued : ∀ p r, p ∈ (s.kernel.rwlocks r).readerWaiters → held.ofProc p < 255
  dead : ∀ p, (s.kernel.pcbs p).state = .terminated → held.ofProc p = 0

variable {rw : Nat → Rwlock} {p : PcbRef} {point : Point} {r : Nat}

theorem Reading.run : Reading rw held p .run :=
  ⟨nofun, nofun, fun _ ht => (by simp [Point.Tries] at ht)⟩

theorem Reading.wait {l : Lock} : Reading rw held p (.wait l) :=
  ⟨nofun, nofun, fun _ ht => (by simp [Point.Tries] at ht)⟩

theorem Reading.release {l : Lock} (hread : ∀ n, l = .read n → (p, n) ∈ held)
    (hwrite : ∀ n, l = .write n → (rw n).writer = some p) : Reading rw held p (.release l) :=
  ⟨fun n hp => hread n (Point.release.inj hp), fun n hp => hwrite n (Point.release.inj hp),
    fun _ ht => (by simp [Point.Tries] at ht)⟩

theorem Reading.afterYield (h : Reading rw held p point) : Reading rw held p point.afterYield where
  reads := fun r hp => h.reads r (afterYield_release.mp hp)
  writes := fun r hp => h.writes r (afterYield_release.mp hp)
  fits := fun r ht => h.fits r (afterYield_tries.mp ht)

/-- The acquisitions of other processes and the writers of other locks do not count. -/
theorem Reading.carry {rw' : Nat → Rwlock} {held' : Held} (h : Reading rw held p point)
    (hmem : ∀ n, (p, n) ∈ held → (p, n) ∈ held')
    (hwriter : ∀ n, (rw n).writer = some p → (rw' n).writer = some p)
    (hproc : ∀ n, point.Tries (.read n) → held'.ofProc p ≤ held.ofProc p) :
    Reading rw' held' p point where
  reads := fun n hp => hmem n (h.reads n hp)
  writes := fun n hp => hwriter n (h.writes n hp)
  fits := fun n ht => Nat.lt_of_le_of_lt (hproc n ht) (h.fits n ht)

theorem Ran.reading (hran : Ran s s' point) (hself : Reading rw held s.kernel.current point)
    (hothers : ∀ p, p ≠ s.kernel.current → Reading rw held p (s.point p)) (p : PcbRef) :
    Reading rw held p (s'.point p) := by
  by_cases hp : p = s.kernel.current
  · rw [hp, hran.self]
    exact hself
  · rw [hran.others hp]
    exact hothers p hp

/-- A section at lock `r` leaves the other locks as they are. -/
theorem at_lock {P : Nat → Rwlock → Prop} {v : Rwlock} (hself : s'.kernel.rwlocks r = v)
    (hother : ∀ n, n ≠ r → s'.kernel.rwlocks n = s.kernel.rwlocks n) (hr : P r v)
    (hn : ∀ n, n ≠ r → P n (s.kernel.rwlocks n)) (n : Nat) : P n (s'.kernel.rwlocks n) := by
  by_cases he : n = r
  · rw [he, hself]
    exact hr
  · rw [hother n he]
    exact hn n he

/-- A step that leaves the readers and the acquisitions alone. -/
theorem ReadAt.rests (h : ReadAt s held)
    (hrw : ∀ r, ∃ init q, s'.kernel.rwlocks r =
      { s.kernel.rwlocks r with initialized := init, writerWaiters := q })
    (hcounts : Kernel.KeepsReadLocks s.kernel s'.kernel)
    (hdead : ∀ p, (s'.kernel.pcbs p).state = .terminated →
      (s.kernel.pcbs p).state = .terminated ∨ held.ofProc p = 0)
    (hpoint : ∀ p, s'.point p = s.point p ∨ s'.point p = (s.point p).afterYield ∨
      Reading s.kernel.rwlocks held p (s'.point p)) : ReadAt s' held := by
  have hwriter (r : Nat) : (s'.kernel.rwlocks r).writer = (s.kernel.rwlocks r).writer := by
    obtain ⟨init, q, he⟩ := hrw r
    rw [he]
  constructor
  case readers =>
    intro r
    obtain ⟨init, q, he⟩ := hrw r
    rw [he]
    exact h.readers r
  case counts =>
    intro p
    rcases hcounts p with he | ⟨ht, he⟩
    · rw [he]
      exact h.counts p
    · rw [he, h.dead p ht]
      rfl
  case exclusive =>
    intro r hw
    rw [hwriter] at hw
    exact h.exclusive r hw
  case points =>
    intro p
    have hreading : Reading s.kernel.rwlocks held p (s'.point p) := by
      rcases hpoint p with hp | hp | hp
      · rw [hp]
        exact h.points p
      · rw [hp]
        exact (h.points p).afterYield
      · exact hp
    apply hreading.carry (fun _ hin => hin) (fun r hp => ?_) (fun _ _ => Nat.le_refl _)
    rw [hwriter]
    exact hp
  case queued =>
    intro p r hp
    obtain ⟨init, q, he⟩ := hrw r
    rw [he] at hp
    exact h.queued p r hp
  case dead =>
    intro p ht
    exact (hdead p ht).elim (h.dead p) id

theorem ReadAt.beside (h : ReadAt s held) {ends : PcbRef → Prop} (hq : Quiet s s' ends)
    (hcounts : Kernel.KeepsReadLocks s.kernel s'.kernel) (hends : ∀ p, ends p → ∀ r, (p, r) ∉ held) :
    ReadAt s' held := by
  have hrw : s'.kernel.rwlocks = s.kernel.rwlocks := congrArg (fun l => l.2.2) hq.locks
  refine h.rests (fun r => ⟨_, _, by rw [hrw]⟩) hcounts (fun p ht => ?_) fun p => ?_
  · by_cases he : ends p
    · exact .inr (Held.ofProc_zero (hends p he))
    · left
      by_contra ha
      exact hq.stays p he ha ht
  · rcases hq.point p with hp | hp | ⟨hp, _⟩
    · exact .inl hp
    · exact .inr (.inl hp)
    · right
      right
      rw [hp]
      exact .run

/-- A section ends no process. -/
theorem Ran.terminated (hran : Ran s s' point) (ht : (s'.kernel.pcbs p).state = .terminated) :
    (s.kernel.pcbs p).state = .terminated := by
  by_contra ha
  exact hran.alive p ha ht

/-- A section that is about no reader. -/
theorem ReadAt.ran (h : ReadAt s held) (hran : Ran s s' point)
    (hrw : ∀ r, ∃ init q, s'.kernel.rwlocks r =
      { s.kernel.rwlocks r with initialized := init, writerWaiters := q })
    (hcounts : s'.kernel.readLocks = s.kernel.readLocks)
    (hcur : Reading s.kernel.rwlocks held s.kernel.current point) : ReadAt s' held := by
  refine h.rests hrw (.of_eq hcounts) (fun p ht => .inl (hran.terminated ht)) fun p => ?_
  exact .inr (.inr (hran.reading hcur (fun p _ => h.points p) p))

theorem ReadAt.ofProc_le (h : ReadAt s held) (p : PcbRef) : held.ofProc p ≤ 255 := by
  rw [← h.counts]
  have := (s.kernel.readLocks p).isLt
  omega

/-! ## The sections of the read and write calls -/

/-- `rwlock_read_lock` goes in. -/
theorem ReadAt.admits (h : ReadAt s held) (hw : s.WaitInv) (hr : s.kernel.cur.state = .running)
    (here : s.here = .attempt (.read r)) (free : (s.kernel.rwlocks r).writer = none)
    (hself : s'.kernel.rwlocks r =
      { s.kernel.rwlocks r with readers := (s.kernel.rwlocks r).readers + 1#32 })
    (hother : ∀ n, n ≠ r → s'.kernel.rwlocks n = s.kernel.rwlocks n)
    (hcounts : ∀ q, s'.kernel.readLocks q =
      s.kernel.readLocks q + if q = s.kernel.current then 1#8 else 0#8)
    (hran : Ran s s' .run) : ReadAt s' ((s.kernel.current, r) :: held) := by
  have hfits : held.ofProc s.kernel.current < 255 := (h.points s.kernel.current).fits r (.inr (.inl here))
  have hsame {p : PcbRef} (hp : p ≠ s.kernel.current) :
      Held.ofProc ((s.kernel.current, r) :: held) p = held.ofProc p := by
    rw [Held.ofProc_cons, if_neg (Ne.symm hp), Nat.add_zero]
  have hsides (n : Nat) : (s'.kernel.rwlocks n).writer = (s.kernel.rwlocks n).writer ∧
      (s'.kernel.rwlocks n).readerWaiters = (s.kernel.rwlocks n).readerWaiters :=
    at_lock (P := fun n v => v.writer = (s.kernel.rwlocks n).writer ∧
      v.readerWaiters = (s.kernel.rwlocks n).readerWaiters) hself hother ⟨rfl, rfl⟩
      (fun _ _ => ⟨rfl, rfl⟩) n
  constructor
  case readers =>
    intro n
    rw [Held.ofLock_cons, ← h.readers]
    by_cases hn : n = r
    · subst hn
      have hle := Held.ofLock_le h.ofProc_le n
      rw [← h.readers] at hle
      rw [hself, if_pos rfl, BitVec.toNat_add, BitVec.toNat_ofNat]
      omega
    · rw [hother n hn, if_neg (Ne.symm hn), Nat.add_zero]
  case counts =>
    intro q
    rw [hcounts]
    by_cases hq : q = s.kernel.current
    · subst hq
      rw [← h.counts] at hfits
      rw [Held.ofProc_cons, if_pos rfl, if_pos rfl, ← h.counts, BitVec.toNat_add, BitVec.toNat_ofNat]
      omega
    · rw [if_neg hq, BitVec.add_zero, hsame hq]
      exact h.counts q
  case exclusive =>
    intro n hne
    rw [(hsides n).1] at hne
    have hn : r ≠ n := by
      rintro rfl
      exact hne free
    rw [Held.ofLock_cons, if_neg hn, Nat.add_zero]
    exact h.exclusive n hne
  case points =>
    apply hran.reading .run
    intro p hp
    apply (h.points p).carry (fun _ hin => List.mem_cons_of_mem _ hin) (fun n hpt => ?_)
    · exact fun _ _ => Nat.le_of_eq (hsame hp)
    · rw [(hsides n).1]
      exact hpt
  case queued =>
    intro p n hin
    have hqueue : p ∈ (s.kernel.rwlocks n).readerWaiters := by
      rw [(hsides n).2] at hin
      exact hin
    have hp : p ≠ s.kernel.current := by
      rintro rfl
      exact hw.running hr (.read n) hqueue
    rw [hsame hp]
    exact h.queued p n hqueue
  case dead =>
    intro p ht
    have hold := hran.terminated ht
    have hp : p ≠ s.kernel.current := by
      rintro rfl
      rw [Kernel.cur, hold] at hr
      cases hr
    rw [hsame hp]
    exact h.dead p hold

/-- `rwlock_read_lock` queues. -/
theorem ReadAt.queues (h : ReadAt s held) (here : s.here = .attempt (.read r))
    (hself : s'.kernel.rwlocks r = { s.kernel.rwlocks r with
      readerWaiters := (s.kernel.rwlocks r).readerWaiters ++ [s.kernel.current] })
    (hother : ∀ n, n ≠ r → s'.kernel.rwlocks n = s.kernel.rwlocks n)
    (hcounts : s'.kernel.readLocks = s.kernel.readLocks) (hran : Ran s s' (.wait (.read r))) :
    ReadAt s' held := by
  have hfits : held.ofProc s.kernel.current < 255 := (h.points s.kernel.current).fits r (.inr (.inl here))
  have hsides (n : Nat) : (s'.kernel.rwlocks n).readers = (s.kernel.rwlocks n).readers ∧
      (s'.kernel.rwlocks n).writer = (s.kernel.rwlocks n).writer :=
    at_lock (P := fun n v => v.readers = (s.kernel.rwlocks n).readers ∧
      v.writer = (s.kernel.rwlocks n).writer) hself hother ⟨rfl, rfl⟩ (fun _ _ => ⟨rfl, rfl⟩) n
  constructor
  case readers =>
    intro n
    rw [(hsides n).1]
    exact h.readers n
  case counts => rw [hcounts]; exact h.counts
  case exclusive =>
    intro n hne
    rw [(hsides n).2] at hne
    exact h.exclusive n hne
  case points =>
    apply hran.reading .wait
    intro p hp
    apply (h.points p).carry (fun _ hin => hin) (fun n hpt => ?_) (fun _ _ => Nat.le_refl _)
    rw [(hsides n).2]
    exact hpt
  case queued =>
    intro p n
    apply at_lock (P := fun _ v => p ∈ v.readerWaiters → held.ofProc p < 255) hself hother
    · intro hin
      rcases List.mem_append.mp hin with hin | hin
      · exact h.queued p r hin
      · rw [List.mem_singleton.mp hin]
        exact hfits
    · exact fun n _ hin => h.queued p n hin
  case dead => exact fun p ht => h.dead p (hran.terminated ht)

/-- The writer of a lock changes: nobody stands before the section of another one's unlock. -/
theorem ReadAt.changesWriter (h : ReadAt s held) {w : PcbRef} {q : List PcbRef}
    (hself : s'.kernel.rwlocks r = { s.kernel.rwlocks r with writer := some w, writerWaiters := q })
    (hother : ∀ n, n ≠ r → s'.kernel.rwlocks n = s.kernel.rwlocks n)
    (hcounts : s'.kernel.readLocks = s.kernel.readLocks) (hempty : held.ofLock r = 0)
    (hold : ∀ p, p ≠ s.kernel.current → (s.kernel.rwlocks r).writer ≠ some p) (hran : Ran s s' .run) :
    ReadAt s' held := by
  constructor
  case readers =>
    apply at_lock (P := fun n v => v.readers.toNat = held.ofLock n) hself hother
    · exact h.readers r
    · exact fun n _ => h.readers n
  case counts => rw [hcounts]; exact h.counts
  case exclusive =>
    apply at_lock (P := fun n v => v.writer ≠ none → held.ofLock n = 0) hself hother
    · exact fun _ => hempty
    · exact fun n _ => h.exclusive n
  case points =>
    apply hran.reading .run
    intro p hp
    apply (h.points p).carry (fun _ hin => hin) (fun n hpt => ?_) (fun _ _ => Nat.le_refl _)
    have hn : n ≠ r := by
      rintro rfl
      exact hold p hp hpt
    rw [hother n hn]
    exact hpt
  case queued =>
    intro p
    apply at_lock (P := fun _ v => p ∈ v.readerWaiters → held.ofProc p < 255) hself hother
    · exact h.queued p r
    · exact fun n _ => h.queued p n
  case dead => exact fun p ht => h.dead p (hran.terminated ht)

/-- `rwlock_read_unlock`. -/
theorem ReadAt.leaves (h : ReadAt s held) (here : s.here = .release (.read r)) {q : List PcbRef}
    (hself : s'.kernel.rwlocks r = { Kernel.dropReader (s.kernel.rwlocks r) with writerWaiters := q })
    (hother : ∀ n, n ≠ r → s'.kernel.rwlocks n = s.kernel.rwlocks n)
    (hcounts : ∀ q, s'.kernel.readLocks q =
      s.kernel.readLocks q - if q = s.kernel.current then 1#8 else 0#8)
    (hran : Ran s s' .run) : ReadAt s' (held.erase (s.kernel.current, r)) := by
  have hin : (s.kernel.current, r) ∈ held := (h.points s.kernel.current).reads r here
  have hlock := Held.ofLock_erase hin
  have hproc := Held.ofProc_erase hin
  have hless (p : PcbRef) : Held.ofProc (held.erase (s.kernel.current, r)) p ≤ held.ofProc p := by
    rw [hproc p]
    exact Nat.le_add_right _ _
  have hsides (n : Nat) : (s'.kernel.rwlocks n).writer = (s.kernel.rwlocks n).writer ∧
      (s'.kernel.rwlocks n).readerWaiters = (s.kernel.rwlocks n).readerWaiters :=
    at_lock (P := fun n v => v.writer = (s.kernel.rwlocks n).writer ∧
      v.readerWaiters = (s.kernel.rwlocks n).readerWaiters) hself hother ⟨rfl, rfl⟩
      (fun _ _ => ⟨rfl, rfl⟩) n
  constructor
  case readers =>
    intro n
    have hold := h.readers n
    rw [hlock n] at hold
    by_cases hn : n = r
    · subst hn
      rw [if_pos rfl] at hold
      have hne : (s.kernel.rwlocks n).readers ≠ 0#32 := by
        intro hz
        rw [hz, BitVec.toNat_ofNat] at hold
        omega
      have hone : 1#32 ≤ (s.kernel.rwlocks n).readers := by
        rw [BitVec.le_def, hold, BitVec.toNat_ofNat]
        omega
      rw [hself, Kernel.dropReader, if_pos hne, BitVec.toNat_sub_of_le hone, hold, BitVec.toNat_ofNat]
      omega
    · rw [if_neg (Ne.symm hn), Nat.add_zero] at hold
      rw [hother n hn]
      exact hold
  case counts =>
    intro p
    have hold := h.counts p
    rw [hproc p] at hold
    rw [hcounts]
    by_cases hp : p = s.kernel.current
    · subst hp
      rw [if_pos rfl] at hold ⊢
      have hone : 1#8 ≤ s.kernel.readLocks s.kernel.current := by
        rw [BitVec.le_def, hold, BitVec.toNat_ofNat]
        omega
      rw [BitVec.toNat_sub_of_le hone, hold, BitVec.toNat_ofNat]
      omega
    · rw [if_neg (Ne.symm hp), Nat.add_zero] at hold
      rw [if_neg hp, BitVec.sub_zero]
      exact hold
  case exclusive =>
    intro n hne
    rw [(hsides n).1] at hne
    have hzero := h.exclusive n hne
    rw [hlock n] at hzero
    omega
  case points =>
    apply hran.reading .run
    intro p hp
    apply (h.points p).carry (fun n hheld => ?_) (fun n hpt => ?_) (fun _ _ => hless p)
    · have hne : (p, n) ≠ (s.kernel.current, r) := fun he => hp (congrArg Prod.fst he)
      exact (List.mem_erase_of_ne hne).mpr hheld
    · rw [(hsides n).1]
      exact hpt
  case queued =>
    intro p n hq
    rw [(hsides n).2] at hq
    exact Nat.lt_of_le_of_lt (hless p) (h.queued p n hq)
  case dead =>
    intro p ht
    exact Nat.le_zero.mp ((h.dead p (hran.terminated ht)) ▸ hless p)

/-- `rwlock_write_unlock` lets all waiting readers in when no writer waits. -/
theorem ReadAt.letsIn (h : ReadAt s held) (hw : s.WaitInv) (here : s.here = .release (.write r))
    (hself : s'.kernel.rwlocks r = { s.kernel.rwlocks r with
      writer := none
      readerWaiters := []
      readers := (s.kernel.rwlocks r).readers + BitVec.ofNat 32 (s.kernel.rwlocks r).readerWaiters.length })
    (hother : ∀ n, n ≠ r → s'.kernel.rwlocks n = s.kernel.rwlocks n)
    (hcounts : ∀ q, s'.kernel.readLocks q =
      s.kernel.readLocks q + if q ∈ (s.kernel.rwlocks r).readerWaiters then 1#8 else 0#8)
    (hran : Ran s s' .run) :
    ReadAt s' ((s.kernel.rwlocks r).readerWaiters.map (·, r) ++ held) := by
  have hwriter := (h.points s.kernel.current).writes r here
  have hempty : held.ofLock r = 0 := h.exclusive r (by rw [hwriter]; exact Option.some_ne_none _)
  have hnodup : (s.kernel.rwlocks r).readerWaiters.Nodup := hw.nodup (.read r)
  have hwaits {p : PcbRef} (hp : p ∈ (s.kernel.rwlocks r).readerWaiters) :
      (s.kernel.pcbs p).state = .blocked ∧ (s.point p).Waits (.read r) := (hw.queued (.read r) p).mp hp
  have hsame {p : PcbRef} (hp : p ∉ (s.kernel.rwlocks r).readerWaiters) :
      Held.ofProc ((s.kernel.rwlocks r).readerWaiters.map (·, r) ++ held) p = held.ofProc p := by
    rw [Held.ofProc_admit held hnodup, if_neg hp, Nat.add_zero]
  constructor
  case readers =>
    intro n
    rw [Held.ofLock_admit, ← h.readers]
    by_cases hn : n = r
    · subst hn
      have hlen := hnodup.length_le_card
      rw [Fintype.card_fin] at hlen
      have hzero := h.readers n
      rw [hempty] at hzero
      rw [hself, if_pos rfl, BitVec.toNat_add, BitVec.toNat_ofNat]
      omega
    · rw [hother n hn, if_neg (Ne.symm hn), Nat.add_zero]
  case counts =>
    intro q
    rw [hcounts]
    by_cases hq : q ∈ (s.kernel.rwlocks r).readerWaiters
    · have hfits := h.queued q r hq
      rw [← h.counts] at hfits
      rw [Held.ofProc_admit held hnodup, if_pos hq, if_pos hq, ← h.counts, BitVec.toNat_add,
        BitVec.toNat_ofNat]
      omega
    · rw [if_neg hq, BitVec.add_zero, hsame hq]
      exact h.counts q
  case exclusive =>
    apply at_lock (P := fun n v => v.writer ≠ none →
      Held.ofLock ((s.kernel.rwlocks r).readerWaiters.map (·, r) ++ held) n = 0) hself hother
    · exact fun hne => absurd rfl hne
    · intro n hn hne
      rw [Held.ofLock_admit, if_neg (Ne.symm hn), Nat.add_zero]
      exact h.exclusive n hne
  case points =>
    apply hran.reading .run
    intro p hp
    apply (h.points p).carry (fun _ hin => List.mem_append_right _ hin) (fun n hpt => ?_) fun n ht => ?_
    · have hn : n ≠ r := by
        rintro rfl
        rw [hwriter] at hpt
        exact hp (Option.some.inj hpt).symm
      rw [hother n hn]
      exact hpt
    · have hout : p ∉ (s.kernel.rwlocks r).readerWaiters := by
        intro hq
        rcases (hwaits hq).2 with hpt | hpt <;> simp [hpt, Point.Tries] at ht
      exact Nat.le_of_eq (hsame hout)
  case queued =>
    intro p
    apply at_lock (P := fun _ v => p ∈ v.readerWaiters →
      Held.ofProc ((s.kernel.rwlocks r).readerWaiters.map (·, r) ++ held) p < 255) hself hother
    · exact fun h => absurd h List.not_mem_nil
    · intro n hn hq
      have hout : p ∉ (s.kernel.rwlocks r).readerWaiters := by
        intro hin
        have hlock := (hwaits hin).2.lock_eq ((hw.queued (.read n) p).mp hq).2
        exact hn (Lock.read.inj hlock).symm
      rw [hsame hout]
      exact h.queued p n hq
  case dead =>
    intro p ht
    have hold := hran.terminated ht
    have hout : p ∉ (s.kernel.rwlocks r).readerWaiters := by
      intro hin
      rw [(hwaits hin).1] at hold
      cases hold
    rw [hsame hout]
    exact h.dead p hold

/-! ## Runs -/

structure ReadInv (x : OsState × Held) : Prop where
  shell : x.1.ShellInv
  wait : x.1.WaitInv
  reads : ReadAt x.1 x.2

/-- A section at a mutex or a semaphore. -/
theorem ReadAt.otherLock (h : ReadAt s held) (hran : Ran s s' point) {l : Lock}
    (hl : ∀ n, l ≠ .read n ∧ l ≠ .write n) (honly : Kernel.Only s.kernel l s'.kernel)
    (hcounts : s'.kernel.readLocks = s.kernel.readLocks)
    (hcur : Reading s.kernel.rwlocks held s.kernel.current point) : ReadAt s' held :=
  h.ran hran (fun n => ⟨_, _, by rw [honly.rwlocks n (hl n).1 (hl n).2]⟩) hcounts hcur

theorem ReadAt.init (h : ReadAt s held) {l : Lock} (here : s.here = .init l)
    (hvacant : ∀ r, s.here = .init (.read r) ∨ s.here = .init (.write r) → s.Vacant r)
    (hkernel : s'.kernel = s.kernel.lazyInit l) (hran : Ran s s' (.attempt l)) : ReadAt s' held := by
  refine h.ran hran (fun n => ?_) (by rw [hkernel]; exact Kernel.lazyInit_readLocks _ l) ?_
  · rw [hkernel]
    by_cases hl : l = .read n ∨ l = .write n
    · have hn : s.Vacant n := by
        apply hvacant
        rcases hl with rfl | rfl
        · exact .inl here
        · exact .inr here
      exact ⟨_, _, hn.lazily hl⟩
    · rw [not_or] at hl
      exact ⟨_, _, (Kernel.lazyInit_only s.kernel l).rwlocks n hl.1 hl.2⟩
  · refine ⟨nofun, nofun, fun n ht => (h.points s.kernel.current).fits n ?_⟩
    rcases ht with ht | ht | ht
    · cases ht
    · rw [show s.point s.kernel.current = _ from here]
      exact .inl (by rw [Point.attempt.inj ht])
    · cases ht

theorem noteHeld_rests {point : Point} (here : s.here = point) (held : Held)
    (h : ∀ r, point ≠ .attempt (.read r) ∧ point ≠ .release (.read r) ∧ point ≠ .release (.write r)) :
    noteHeld s .proceed held = held := by
  unfold noteHeld
  dsimp only
  rw [here]
  split
  · rename_i r
    exact absurd rfl (h r).1
  · rename_i r
    exact absurd rfl (h r).2.1
  · rename_i r
    exact absurd rfl (h r).2.2
  · rfl

/-- An acquiring call passes. -/
theorem ReadAt.got (h : ReadAt s held) (hw : s.WaitInv) (hr : s.kernel.cur.state = .running) {l : Lock}
    (here : s.here = .attempt l) (got : (s.kernel.attempt l).1 = .got)
    (hkernel : s'.kernel = (s.kernel.attempt l).2) (hran : Ran s s' .run) :
    ReadAt s' (noteHeld s .proceed held) := by
  have honly : Kernel.Only s.kernel l s'.kernel := by
    rw [hkernel]
    exact Kernel.attempt_only s.kernel l
  cases l with
  | mutex m =>
    rw [noteHeld_rests here held fun r => ⟨nofun, nofun, nofun⟩]
    exact h.otherLock (l := .mutex m) hran (fun n => ⟨nofun, nofun⟩) honly
      (by rw [hkernel]; exact Kernel.mutexAttempt_readLocks _ m) .run
  | sem i =>
    rw [noteHeld_rests here held fun r => ⟨nofun, nofun, nofun⟩]
    exact h.otherLock (l := .sem i) hran (fun n => ⟨nofun, nofun⟩) honly
      (by rw [hkernel]; exact Kernel.semAttempt_readLocks _ i) .run
  | read r =>
    obtain ⟨free, -, hval⟩ := Kernel.readAttempt_got got
    have hnote : noteHeld s .proceed held = (s.kernel.current, r) :: held := by
      simp only [noteHeld, here, show (s.kernel.readAttempt r).1 = .got from got, if_true]
    rw [hnote]
    refine h.admits hw hr here free (by rw [hkernel]; exact hval) (fun n hn => ?_) (fun q => ?_) hran
    · exact honly.rwlocks n (fun e => hn (Lock.read.inj e).symm) nofun
    · rw [hkernel]
      exact Kernel.readAttempt_got_readLocks got q
  | write r =>
    obtain ⟨free, empty, hval⟩ := Kernel.writeAttempt_got got
    rw [noteHeld_rests here held fun r => ⟨nofun, nofun, nofun⟩]
    have hempty : held.ofLock r = 0 := by
      rw [← h.readers, empty]
      rfl
    refine h.changesWriter (by rw [hkernel]; exact hval) (fun n hn => ?_) ?_ hempty (fun p _ => ?_) hran
    · exact honly.rwlocks n nofun fun e => hn (Lock.write.inj e).symm
    · rw [hkernel]
      exact Kernel.writeAttempt_readLocks _ r
    · rw [free]
      nofun

/-- An acquiring call queues its process. -/
theorem ReadAt.waits (h : ReadAt s held) {l : Lock} (here : s.here = .attempt l)
    (waits : (s.kernel.attempt l).1 = .waits) (joins : Kernel.Joins s.kernel l (s.kernel.attempt l).2)
    (hkernel : s'.kernel = (s.kernel.attempt l).2) (hran : Ran s s' (.wait l)) :
    ReadAt s' (noteHeld s .proceed held) := by
  have honly : Kernel.Only s.kernel l s'.kernel := by
    rw [hkernel]
    exact Kernel.attempt_only s.kernel l
  cases l with
  | mutex m =>
    rw [noteHeld_rests here held fun r => ⟨nofun, nofun, nofun⟩]
    exact h.otherLock (l := .mutex m) hran (fun n => ⟨nofun, nofun⟩) honly
      (by rw [hkernel]; exact Kernel.mutexAttempt_readLocks _ m) .wait
  | sem i =>
    rw [noteHeld_rests here held fun r => ⟨nofun, nofun, nofun⟩]
    exact h.otherLock (l := .sem i) hran (fun n => ⟨nofun, nofun⟩) honly
      (by rw [hkernel]; exact Kernel.semAttempt_readLocks _ i) .wait
  | read r =>
    have hval := Kernel.readAttempt_queues waits joins
    have hnote : noteHeld s .proceed held = held := by
      simp [noteHeld, here, show (s.kernel.readAttempt r).1 = .waits from waits]
    rw [hnote]
    refine h.queues here (by rw [hkernel]; exact hval) (fun n hn => ?_) ?_ hran
    · exact honly.rwlocks n (fun e => hn (Lock.read.inj e).symm) nofun
    · rw [hkernel]
      exact Kernel.readAttempt_waits_readLocks waits
  | write r =>
    obtain ⟨-, q, hval⟩ := Kernel.writeAttempt_waits waits
    rw [noteHeld_rests here held fun r => ⟨nofun, nofun, nofun⟩]
    refine h.ran hran (fun n => ?_) (by rw [hkernel]; exact Kernel.writeAttempt_readLocks _ r) .wait
    by_cases hn : n = r
    · subst hn
      exact ⟨_, q, by rw [hkernel]; exact hval⟩
    · exact ⟨_, _, honly.rwlocks n nofun fun e => hn (Lock.write.inj e).symm⟩

/-- `rwlock_write_unlock` hands the lock to a writer, or lets the readers in. -/
theorem ReadAt.writeLeaves (h : ReadAt s held) (hw : s.WaitInv) (here : s.here = .release (.write r))
    (hkernel : s'.kernel = s.kernel.writeRelease r) (hran : Ran s s' .run) :
    ReadAt s' ((s.kernel.leaving (s.kernel.writeRelease r) (.read r)).map (·, r) ++ held) := by
  have hwriter := (h.points s.kernel.current).writes r here
  have hempty : held.ofLock r = 0 := h.exclusive r (by rw [hwriter]; nofun)
  have hother (n : Nat) (hn : n ≠ r) : s'.kernel.rwlocks n = s.kernel.rwlocks n := by
    rw [hkernel]
    exact (Kernel.release_only s.kernel (.write r)).rwlocks n nofun fun e => hn (Lock.write.inj e).symm
  rcases Kernel.writeRelease_wakes (k := s.kernel) r with ⟨hne, hwakes⟩ | ⟨hnobody, hwakes⟩
  · rw [hwakes.leaving_beside (.read r) nofun]
    obtain ⟨next, rest, hq⟩ := List.exists_cons_of_ne_nil hne
    refine h.changesWriter (by rw [hkernel]; exact Kernel.writeRelease_hand hq) hother ?_ hempty
      (fun p hp => ?_) hran
    · rw [hkernel]
      exact Kernel.writeRelease_hand_readLocks hne
    · rw [hwriter]
      exact fun e => hp (Option.some.inj e).symm
  · rw [hwakes.leaving (hw.nodup _)]
    refine h.letsIn hw here (by rw [hkernel]; exact Kernel.writeRelease_letIn hnobody) hother
      (fun q => ?_) hran
    rw [hkernel]
    exact Kernel.writeRelease_letIn_readLocks hnobody (hw.nodup (.read r)) q

theorem ReadAt.releases (h : ReadAt s held) (hw : s.WaitInv) {l : Lock} (here : s.here = .release l)
    (hkernel : s'.kernel = s.kernel.release l) (hran : Ran s s' .run) :
    ReadAt s' (noteHeld s .proceed held) := by
  have honly : Kernel.Only s.kernel l s'.kernel := by
    rw [hkernel]
    exact Kernel.release_only s.kernel l
  cases l with
  | mutex m =>
    rw [noteHeld_rests here held fun r => ⟨nofun, nofun, nofun⟩]
    exact h.otherLock (l := .mutex m) hran (fun n => ⟨nofun, nofun⟩) honly
      (by rw [hkernel]; exact Kernel.mutexRelease_readLocks _ m) .run
  | sem i =>
    rw [noteHeld_rests here held fun r => ⟨nofun, nofun, nofun⟩]
    exact h.otherLock (l := .sem i) hran (fun n => ⟨nofun, nofun⟩) honly
      (by rw [hkernel]; exact Kernel.semRelease_readLocks _ i) .run
  | read r =>
    obtain ⟨q, hval⟩ := Kernel.readRelease_rwlock s.kernel r
    have hnote : noteHeld s .proceed held = held.erase (s.kernel.current, r) := by simp [noteHeld, here]
    rw [hnote]
    refine h.leaves here (by rw [hkernel]; exact hval) (fun n hn => ?_) (fun q => ?_) hran
    · exact honly.rwlocks n (fun e => hn (Lock.read.inj e).symm) nofun
    · rw [hkernel]
      exact Kernel.readRelease_readLocks _ r q
  | write r =>
    have hnote : noteHeld s .proceed held =
        (s.kernel.leaving (s.kernel.writeRelease r) (.read r)).map (·, r) ++ held := by
      simp [noteHeld, here]
    rw [hnote]
    exact h.writeLeaves hw here hkernel hran

theorem ReadInv.proceeds {x : OsState × Held} (h : ReadInv x) (he : x.1.Enabled .proceed)
    (hrun : ReadRun x .proceed) : ReadAt (x.1.next .proceed) (noteHeld x.1 .proceed x.2) := by
  obtain ⟨s, held⟩ := x
  have hreads := h.reads
  have hproc := h.wait.proceeds h.shell he hrun.1
  have hran := hproc.ran h.wait he.1 hrun.1
  have hkernel : (s.next .proceed).kernel = (s.kernel.advance s.here).2 := rfl
  dsimp only at hreads hproc hran ⊢
  generalize hadv : s.kernel.advance s.here = result at hproc hran hkernel
  cases hproc with
  | init l hp =>
    rw [noteHeld_rests hp held fun r => ⟨nofun, nofun, nofun⟩]
    exact hreads.init hp hrun.2.2 hkernel hran
  | signalInit i hp =>
    rw [noteHeld_rests hp held fun r => ⟨nofun, nofun, nofun⟩]
    have honly : Kernel.Only s.kernel (.sem i) (s.next .proceed).kernel := by
      rw [hkernel]
      exact Kernel.lazyInit_only _ (.sem i)
    exact hreads.otherLock hran (l := .sem i) (fun n => ⟨nofun, nofun⟩) honly (by rw [hkernel]; rfl)
      (.release nofun nofun)
  | got l hp got rests => exact hreads.got h.wait he.1 hp got hkernel hran
  | waits l hp waits joins => exact hreads.waits hp waits joins hkernel hran
  | returns l hp granted =>
    rw [noteHeld_rests hp held fun r => ⟨nofun, nofun, nofun⟩]
    have hrw : (s.next .proceed).kernel.rwlocks = s.kernel.rwlocks := by
      rw [hkernel]
      exact congrArg (fun l => l.2.2) (Kernel.settle_locks s.kernel l)
    exact hreads.ran hran (fun n => ⟨_, _, by rw [hrw]⟩)
      (by rw [hkernel]; exact Kernel.settle_readLocks _ l) .run
  | retries l hp granted =>
    rw [noteHeld_rests hp held fun r => ⟨nofun, nofun, nofun⟩]
    refine hreads.ran hran (fun n => ⟨_, _, by rw [hkernel]⟩) (by rw [hkernel]) ⟨nofun, nofun, fun n ht => ?_⟩
    -- a reader that runs is not blocked, so that it never tries twice
    have hl : l = .read n := by
      rcases ht with ht | ht | ht
      · cases ht
      · exact Point.attempt.inj ht
      · cases ht
    subst hl
    have hrunning : s.kernel.cur.state = .running := he.1
    simp [Kernel.granted, hrunning] at granted
  | release l hp => exact hreads.releases h.wait hp hkernel hran

/-- The byte tells whether the running process holds any read lock. -/
theorem ReadAt.mayRelease (h : ReadAt s held) (r : Nat) :
    s.kernel.mayRelease (.read r) = true ↔ 0 < held.ofProc s.kernel.current := by
  rw [← h.counts]
  simp only [Kernel.mayRelease, bne_iff_ne, ne_eq]
  rw [← BitVec.toNat_inj, BitVec.toNat_ofNat]
  exact Nat.pos_iff_ne_zero.symm

theorem ReadAt.acquires (h : ReadAt s held) {l : Lock}
    (hl : ∀ r, l = .read r → held.ofProc s.kernel.current < 255) : ReadAt (s.next (.acquire l)) held := by
  refine h.ran (.moves rfl rfl) (fun n => ⟨_, _, rfl⟩) rfl ⟨fun n hp => ?_, fun n hp => ?_, fun n ht => hl n ?_⟩
  · rcases enter_cases s.kernel l with he | ⟨he, _⟩ | he <;> rw [he] at hp <;> cases hp
  · rcases enter_cases s.kernel l with he | ⟨he, _⟩ | he <;> rw [he] at hp <;> cases hp
  · rcases enter_cases s.kernel l with he | ⟨he, _⟩ | he <;> rw [he] at ht <;> simp_all [Point.Tries]

/-- A call of a holder passes the test, and a call without any read lock ends there. -/
theorem ReadAt.unlocks (h : ReadAt s held) {l : Lock}
    (hl : ∀ r, l = .read r → (s.kernel.current, r) ∈ held ∨ ∀ n, (s.kernel.current, n) ∉ held) :
    ReadAt (s.next (.unlock l)) (noteHeld s (.unlock l) held) := by
  have hnote : noteHeld s (.unlock l) held = held := by
    cases l with
    | read r =>
      unfold noteHeld
      dsimp only
      rcases hl r rfl with hin | hout
      · rw [if_pos ((h.mayRelease r).mpr (Held.ofProc_pos hin))]
      · rw [List.erase_of_not_mem (hout r)]
        split <;> rfl
    | _ => rfl
  rw [hnote]
  refine h.ran (.moves rfl rfl) (fun n => ⟨_, _, rfl⟩) rfl ?_
  cases l with
  | mutex m | sem i =>
    rcases enterRelease_cases s.kernel _ with he | he | ⟨i, _, he, _⟩ <;> rw [he]
    · exact .run
    · exact .release (by rintro _ ⟨⟩) (by rintro _ ⟨⟩)
    · exact ⟨by rintro _ ⟨⟩, by rintro _ ⟨⟩, fun _ ht => (by simp [Point.Tries] at ht)⟩
  | read r =>
    simp only [Kernel.enterRelease]
    split
    · rename_i hmay
      refine .release (fun n hn => ?_) (by rintro _ ⟨⟩)
      obtain rfl : r = n := Lock.read.inj hn
      apply (hl r rfl).resolve_right
      intro hout
      have hpos := (h.mayRelease r).mp hmay
      rw [Held.ofProc_zero hout] at hpos
      exact absurd hpos (Nat.lt_irrefl 0)
    · exact .run
  | write r =>
    simp only [Kernel.enterRelease]
    split
    · rename_i hmay
      refine .release (by rintro _ ⟨⟩) fun n hn => ?_
      obtain rfl : r = n := Lock.write.inj hn
      simpa [Kernel.mayRelease] using hmay
    · exact .run

theorem ReadInv.next {x : OsState × Held} (h : ReadInv x) (a : Action) (he : x.1.Enabled a)
    (hrun : ReadRun x a) : ReadInv ((machine.watched noteHeld).next x a) := by
  refine ⟨step_shell h.shell a he, h.wait.next h.shell he hrun.1, ?_⟩
  show ReadAt (x.1.next a) (noteHeld x.1 a x.2)
  by_cases hb : Beside a = true
  · have hq := (h.wait.asleep.beside h.shell he hb).1
    have hcounts := beside_readLocks h.shell he hb
    cases a with
    | proceed | unlock l => cases hb
    | _ => exact h.reads.beside hq hcounts hrun.2.1
  · cases a with
    | mutexInit m =>
      have honly := Kernel.lazyInit_only x.1.kernel (.mutex m)
      exact h.reads.otherLock (l := .mutex m) (.still (Kernel.mutexInit_pcbs _ m) rfl)
        (fun n => ⟨nofun, nofun⟩) honly (Kernel.lazyInit_readLocks _ (.mutex m)) (h.reads.points _)
    | semInit i c =>
      exact h.reads.ran (.still rfl rfl) (fun n => ⟨_, _, rfl⟩) rfl (h.reads.points _)
    | rwlockInit r =>
      refine h.reads.ran (.still rfl rfl) (fun n => ?_) rfl (h.reads.points _)
      by_cases hn : n = r
      · subst hn
        exact ⟨_, _, hrun.2.2.initialises⟩
      · exact ⟨_, _, Function.update_of_ne hn _ _⟩
    | acquire l =>
      refine h.reads.acquires fun r hl => ?_
      subst hl
      exact hrun.2.2
    | unlock l =>
      refine h.reads.unlocks fun r hl => ?_
      subst hl
      exact hrun.2.2
    | proceed => exact h.proceeds he hrun
    | blockForever | wake p => exact hrun.1.elim
    | _ => exact absurd rfl hb

theorem boot_reads (b : Boot) : ReadInv (boot b, []) := by
  refine ⟨boot_shell b, boot_wait b, ?_⟩
  constructor
  case readers => exact fun r => rfl
  case counts =>
    intro p
    by_cases hp : p = 0
    · subst hp
      rfl
    · have hpcb : (boot b).kernel.pcbs p = Kernel.emptyPcb := by
        show Function.update (fun _ => Kernel.emptyPcb) 0 Kernel.shellPcb p = _
        rw [Function.update_of_ne hp]
      rw [Kernel.readLocks, hpcb]
      rfl
  case exclusive => exact fun r _ => rfl
  case points => exact fun p => .run
  case queued => exact fun _ _ h => absurd h List.not_mem_nil
  case dead => exact fun p _ => rfl

/-- What the counters of all locks promise together. -/
structure ReadSafe (s : OsState) (held : Held) : Prop where
  readers : ∀ r, (s.kernel.rwlocks r).readers.toNat = held.ofLock r
  /-- No writer stands beside a reader. -/
  exclusive : ∀ r, (s.kernel.rwlocks r).writer ≠ none → ∀ p, (p, r) ∉ held
  /-- An unlock of a holder is not ignored. -/
  matched : ∀ r, (s.kernel.current, r) ∈ held → s.kernel.mayRelease (.read r) = true
  /-- An unlock of a process without read locks is. -/
  stray : (∀ n, (s.kernel.current, n) ∉ held) → ∀ r, s.kernel.mayRelease (.read r) = false

theorem ReadAt.safe (h : ReadAt s held) : ReadSafe s held where
  readers := h.readers
  exclusive := fun r hw p hin => by
    have hpos := Held.ofLock_pos hin
    have hzero := h.exclusive r hw
    omega
  matched := fun r hin => (h.mayRelease r).mpr (Held.ofProc_pos hin)
  stray := fun hout r => by
    have hzero := Held.ofProc_zero hout
    rw [← Bool.not_eq_true, h.mayRelease r]
    omega

/-- The counter of every lock is the number of its read acquisitions that are not released. -/
theorem reachable_reads {b : Boot} {x : OsState × Held}
    (h : (machine.watched noteHeld).Reach ReadRun (boot b, []) x) : ReadSafe x.1 x.2 := by
  have hinv : ReadInv x := h.invariant (boot_reads b) fun x a hx he hrun => hx.next a he hrun
  exact hinv.reads.safe

/-- Steps of `ReadRun` that create processes, dispatch and call. -/
def readStep (x : OsState × Held) : Action → Bool
  | .create _ _ | .yield _ => true
  | .rwlockInit r => (x.1.kernel.rwlocks r).readers == 0#32 && (x.1.kernel.rwlocks r).writer.isNone &&
      (x.1.kernel.rwlocks r).readerWaiters.isEmpty && (x.1.kernel.rwlocks r).writerWaiters.isEmpty
  | .acquire (.read _) => x.2.ofProc x.1.kernel.current < 255
  | .unlock (.read r) => (x.1.kernel.current, r) ∈ x.2 || x.2.ofProc x.1.kernel.current == 0
  | .proceed => match x.1.here with
    | .attempt _ => x.1.kernel.cur.pid != 0#32
    | .init _ | .signalInit _ => false
    | _ => true
  | _ => false

theorem readStep_readRun {x : OsState × Held} {a : Action} (h : readStep x a = true) : ReadRun x a := by
  cases a with
  | create entry name | yield contextEsp => exact ⟨trivial, nofun, trivial⟩
  | rwlockInit r =>
    simp only [readStep, Bool.and_eq_true, beq_iff_eq, Option.isNone_iff_eq_none, List.isEmpty_iff] at h
    obtain ⟨⟨⟨hreaders, hwriter⟩, hrq⟩, hwq⟩ := h
    exact ⟨⟨hrq, hwq⟩, nofun, ⟨hreaders, hwriter, hrq, hwq⟩⟩
  | acquire l =>
    cases l with
    | read r => exact ⟨trivial, nofun, by simpa [readStep] using h⟩
    | _ => cases h
  | unlock l =>
    cases l with
    | read r =>
      refine ⟨trivial, nofun, ?_⟩
      simp only [readStep, Bool.or_eq_true, decide_eq_true_eq, beq_iff_eq] at h
      refine h.imp_right fun hz n hin => ?_
      have hpos := Held.ofProc_pos hin
      omega
    | _ => cases h
  | proceed =>
    refine ⟨?_, nofun, ?_⟩ <;> cases hp : x.1.here <;> simp_all [readStep, CallRun]
  | _ => cases h

/-- Process 1 nests two locks and leaves one level; process 2 unlocks what it does not hold. -/
def nestRun : List Action :=
  [.create 0x11000#32 none, .create 0x12000#32 none, .rwlockInit 0, .rwlockInit 1, .yield 0x90000#32,
    .acquire (.read 0), .proceed, .acquire (.read 0), .proceed, .acquire (.read 1), .proceed,
    .unlock (.read 0), .proceed, .yield 0x100F00#32, .unlock (.read 0)]

theorem nestRun_safe :
    ∃ x, (machine.watched noteHeld).Reach ReadRun (boot smallBoot, []) x ∧
      x.1.kernel.current = 2 ∧ x.2 = [(1, 1), (1, 0)] ∧ ReadSafe x.1 x.2 := by
  have hrun : (machine.watched noteHeld).Accepts (fun x a => readStep x a = true) (boot smallBoot, [])
      nestRun := by decide +kernel
  have hreach : (machine.watched noteHeld).Reach ReadRun (boot smallBoot, [])
      ((machine.watched noteHeld).after (boot smallBoot, []) nestRun) :=
    .mono (fun _ _ => readStep_readRun) (.accepts .start hrun)
  have hend : ((machine.watched noteHeld).after (boot smallBoot, []) nestRun).1.kernel.current = 2 ∧
      ((machine.watched noteHeld).after (boot smallBoot, []) nestRun).2 = [(1, 1), (1, 0)] := by
    decide +kernel
  exact ⟨_, hreach, hend.1, hend.2, reachable_reads hreach⟩

/-- Process 2 holds lock 1 for reading, unlocks lock 0 and locks it for writing. -/
def strayRun : List Action :=
  [.create 0x11000#32 none, .create 0x12000#32 none, .rwlockInit 0, .rwlockInit 1, .yield 0x90000#32,
    .acquire (.read 0), .proceed, .yield 0x100F00#32, .acquire (.read 1), .proceed, .unlock (.read 0),
    .proceed, .acquire (.write 0), .proceed]

/-- The writer stands beside process 1, which still reads. -/
theorem stray_unlock_admits_writer :
    ∃ x, (machine.watched noteHeld).Reach (fun _ _ => True) (boot smallBoot, []) x ∧
      (1, 0) ∈ x.2 ∧ x.2.ofLock 0 = 1 ∧ (x.1.kernel.rwlocks 0).readers = 0#32 ∧
      (x.1.kernel.rwlocks 0).writer = some 2 := by
  have hrun : (machine.watched noteHeld).Accepts (fun _ _ => True) (boot smallBoot, []) strayRun := by
    decide +kernel
  exact ⟨_, .accepts .start hrun, by decide +kernel⟩

end OsState

end SengOS
