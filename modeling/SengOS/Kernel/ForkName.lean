import SengOS.Kernel.Switch

/-!
# The name of a forked child

`scheduler_fork` copies the parent's name, and appends `-c` if there is room for one
more byte. The suffix and its NUL need three. A name of 14 bytes leaves room for two:
the NUL goes to the first byte of the next PCB.
-/

namespace SengOS

namespace Kernel

variable {k : Kernel} {child : PcbRef}

/-! ## The stores -/

/-- The stores of `scheduler_fork` to the child's name, in order: index and byte. -/
def forkNameStores (parent : Buf 16) : List (Nat × Byte) :=
  let base := parent.cstrAt 0 15
  let i := base.length
  Buf.copyStores 0 base ++ if i < 15 then [(i, 0x2D#8), (i + 1, 0x63#8), (i + 2, 0#8)] else []

/-- A store to `child->name[w.1]`. The name is the last field of a PCB: the byte behind it is
the first of the next PCB's `pid`, or of what the linker put behind the table. -/
def storeName (child : PcbRef) (k : Kernel) (w : Nat × Byte) : Kernel :=
  if w.1 < 16 then k.modify child fun q => { q with name := q.name.set w.1 w.2 }
  else if h : child.val + 1 < 16 then
    k.modify ⟨child.val + 1, h⟩ fun q => { q with pid := q.pid &&& 0xFFFFFF00#32 ||| w.2.setWidth 32 }
  else { k with pastTable := w.2 }

theorem foldl_storeName {ws : List (Nat × Byte)} (hws : ∀ w ∈ ws, w.1 < 16) (k : Kernel) :
    ws.foldl (storeName child) k = k.modify child fun q => { q with name := q.name.setAll ws } := by
  induction ws generalizing k with
  | nil => simp [Buf.setAll, modify]
  | cons w ws ih =>
    rw [List.foldl_cons, ih fun v hv => hws v (List.mem_cons_of_mem w hv), storeName,
      if_pos (hws w List.mem_cons_self)]
    simp [modify, Buf.setAll]

/-- The stores behind the copy are made only when the copy leaves a byte free. -/
theorem forkNameStores_lt {parent : Buf 16} (h : (parent.cstrAt 0 15).length ≠ 14) :
    ∀ w ∈ forkNameStores parent, w.1 < 16 := by
  have hlen := parent.length_cstrAt_le 0 15
  intro w hw
  rw [forkNameStores, List.mem_append] at hw
  rcases hw with hw | hw
  · have := Buf.copyStores_le hw
    omega
  · split at hw
    · simp only [List.mem_cons, List.not_mem_nil, or_false] at hw
      rcases hw with rfl | rfl | rfl <;> dsimp only <;> omega
    · cases hw

theorem setAll_forkNameStores {parent : Buf 16} (child : Buf 16) :
    child.setAll (forkNameStores parent) = forkName parent child := by
  have hlen := parent.length_cstrAt_le 0 15
  rw [forkNameStores, forkName, Buf.strCopyN_eq_setAll child (by omega), Buf.setAll, List.foldl_append]
  split <;> rfl

/-- The model's `fork_name` and `name_spill` are these stores. -/
theorem foldl_forkNameStores (k : Kernel) (parent : Buf 16) :
    (forkNameStores parent).foldl (storeName child) k =
      (k.modify child fun q => { q with name := forkName parent q.name }).nameSpill parent child := by
  by_cases h : (parent.cstrAt 0 15).length = 14
  · have hstores : forkNameStores parent =
        (Buf.copyStores 0 (parent.cstrAt 0 15) ++ [(14, 0x2D#8), (15, 0x63#8)]) ++ [(16, 0#8)] := by
      rw [forkNameStores, h]
      simp
    have hinside : ∀ w ∈ Buf.copyStores 0 (parent.cstrAt 0 15) ++ [(14, 0x2D#8), (15, 0x63#8)],
        w.1 < 16 := by
      intro w hw
      rw [List.mem_append] at hw
      rcases hw with hw | hw
      · have := Buf.copyStores_le hw
        omega
      · simp only [List.mem_cons, List.not_mem_nil, or_false] at hw
        rcases hw with rfl | rfl <;> decide
    -- the last store is the one behind the field, which `Buf.set` ignores
    have hname (b : Buf 16) : b.setAll (Buf.copyStores 0 (parent.cstrAt 0 15) ++
        [(14, 0x2D#8), (15, 0x63#8)]) = forkName parent b := by
      rw [← setAll_forkNameStores, hstores, Buf.setAll_append b _ [(16, 0#8)]]
      exact (Buf.set_of_le (Nat.le_refl 16) 0#8).symm
    rw [hstores, List.foldl_append, foldl_storeName hinside, nameSpill, if_pos h]
    simp only [List.foldl_cons, List.foldl_nil, storeName, hname]
    simp
  · rw [foldl_storeName (forkNameStores_lt h), nameSpill, if_neg h]
    simp only [setAll_forkNameStores]

/-! ## The child's name -/

theorem schedulerFork_name (h : k.forkTarget = some child) (contextEsp : Word) :
    ((k.schedulerFork contextEsp).2.pcbs child).name =
      forkName k.cur.name (k.pcbs child).name := by
  rw [schedulerFork_pcbs h, if_pos rfl, forkedPcb, takeStack_cur h]

/-- The bytes of the child's name. -/
theorem get_forkName (parent child : Buf 16) {i : Nat} (hi : i < 16) :
    (forkName parent child).get i =
      if i < (parent.cstrAt 0 15).length then parent.get i
      else if (parent.cstrAt 0 15).length = 15 then 0#8
      else if i = (parent.cstrAt 0 15).length then 0x2D#8
      else if i = (parent.cstrAt 0 15).length + 1 then 0x63#8
      else if i = (parent.cstrAt 0 15).length + 2 then 0#8
      else child.get i := by
  have hlen := parent.length_cstrAt_le 0 15
  have hcopied : (child.strCopyN 0 (parent.cstrAt 0 15) 16).get i =
      if i < (parent.cstrAt 0 15).length then parent.get i
      else if i = (parent.cstrAt 0 15).length then 0#8 else child.get i := by
    rw [Buf.get_strCopyN (by omega) hi, Nat.zero_add]
    split
    · rename_i hle
      split
      · rename_i hlt
        rw [Nat.sub_zero, List.getD_eq_getElem?_getD, List.getElem?_append_left hlt,
          ← List.getD_eq_getElem?_getD, Buf.getD_cstrAt hlt, Nat.zero_add]
      · have hend : i = (parent.cstrAt 0 15).length := by omega
        rw [if_pos hend, hend, Nat.sub_zero, List.getD_eq_getElem?_getD, List.getElem?_concat_length]
        rfl
    · rw [if_neg (by omega), if_neg (by omega)]
  rw [forkName]
  generalize (parent.cstrAt 0 15).length = l at hcopied hlen ⊢
  split
  · simp only [Buf.get_set, hcopied]
    grind
  · rw [hcopied]
    grind

/-- What `scheduler_fork` may do to names and to other PCBs. -/
structure NameInBounds (k : Kernel) (child : PcbRef) (k' : Kernel) : Prop where
  stores : ∀ w ∈ forkNameStores k.cur.name, w.1 < 16
  terminated : ∃ i, i < 16 ∧ (k'.pcbs child).name.get i = 0#8
  named : k.cur.name.cstrAt 0 16 <+: (k'.pcbs child).name.cstrAt 0 16
  others : ∀ q, q ≠ child → k'.pcbs q = k.pcbs q

/-- The name is in bounds exactly when it does not have 14 bytes. -/
theorem schedulerFork_nameInBounds_iff (h : k.forkTarget = some child) (contextEsp : Word)
    (hnul : ∃ i, i < 16 ∧ k.cur.name.get i = 0#8) :
    NameInBounds k child (k.schedulerFork contextEsp).2 ↔
      (k.cur.name.cstrAt 0 16).length ≠ 14 := by
  have hshort : k.cur.name.cstrAt 0 15 = k.cur.name.cstrAt 0 16 := by
    obtain ⟨i, hi, hz⟩ := hnul
    have hlt := Buf.length_cstrAt_lt (o := 0) hi (by rwa [Nat.zero_add])
    exact k.cur.name.cstrAt_short (Nat.le_of_lt_succ hlt)
  rw [← hshort]
  have hlen := k.cur.name.length_cstrAt_le 0 15
  have hget (i : Nat) (hi : i < 16) := get_forkName k.cur.name (k.pcbs child).name hi
  rw [← schedulerFork_name h contextEsp] at hget
  constructor
  · intro hin h14
    have hlast : (16, 0#8) ∈ forkNameStores k.cur.name := by
      rw [forkNameStores, h14]
      simp
    exact absurd (hin.stores _ hlast) (by decide)
  · intro h14
    constructor
    case stores => exact forkNameStores_lt h14
    case terminated =>
      by_cases h15 : (k.cur.name.cstrAt 0 15).length = 15
      · refine ⟨15, by decide, ?_⟩
        rw [hget 15 (by decide), h15]
        rfl
      · refine ⟨(k.cur.name.cstrAt 0 15).length + 2, by omega, ?_⟩
        rw [hget _ (by omega), if_neg (by omega), if_neg h15, if_neg (by omega), if_neg (by omega),
          if_pos rfl]
    case named =>
      apply Buf.cstrAt_prefix
      intro i hi
      rw [← hshort] at hi
      rw [Nat.zero_add, hget i (by omega), if_pos hi]
    case others =>
      intro q hq
      rw [schedulerFork_pcbs h, if_neg hq, if_neg]
      exact fun hspill => h14 hspill.1

end Kernel

namespace OsState

/-- Processes 1, 2 and 3 with the name of the first; 2 is killed, and 1 runs. -/
def namedRun (name : CStr) : List Action :=
  [.create 0x11000#32 (some name), .create 0x12000#32 none, .create 0x13000#32 none,
    .kill 0x90000#32 2#32, .start, .tick 0x90000#32]

def initName : CStr := ⟨[0x69#8, 0x6E#8, 0x69#8, 0x74#8], by decide⟩

def afterInit : OsState := machine.after (boot smallBoot) (namedRun initName)

theorem init_inBounds : Kernel.NameInBounds afterInit.kernel 2
    (afterInit.kernel.schedulerFork 0x100F00#32).2 := by
  have hrun : afterInit.kernel.forkTarget = some 2 ∧ afterInit.kernel.cur.name.get 4 = 0#8 ∧
      (afterInit.kernel.cur.name.cstrAt 0 16).length ≠ 14 := by
    decide +kernel
  obtain ⟨hfork, hnul, hlen⟩ := hrun
  exact (Kernel.schedulerFork_nameInBounds_iff hfork 0x100F00#32 ⟨4, by decide, hnul⟩).mpr hlen

/-- A name of 14 bytes. -/
def longName : CStr := ⟨List.replicate 14 0x61#8, by decide⟩

def afterLong : OsState := machine.after (boot smallBoot) (namedRun longName)

/-- The fork of process 1 takes the pid of process 3 away. -/
theorem long_name_spills : ¬ ∀ s, Reached Any s → s.Enabled (.fork 0x100F00#32) →
    ∀ child, s.kernel.forkTarget = some child → (∃ i, i < 16 ∧ s.kernel.cur.name.get i = 0#8) →
      Kernel.NameInBounds s.kernel child (s.next (.fork 0x100F00#32)).kernel := by
  intro h
  have hrun : machine.Accepts Any (boot smallBoot) (namedRun longName) ∧
      afterLong.Enabled (.fork 0x100F00#32) ∧ afterLong.kernel.forkTarget = some 2 ∧
      afterLong.kernel.cur.name.get 14 = 0#8 ∧ (afterLong.kernel.pcbs 3).pid = 3#32 ∧
      ((afterLong.next (.fork 0x100F00#32)).kernel.pcbs 3).pid = 0#32 := by
    decide +kernel
  obtain ⟨haccepts, hen, hfork, hnul, hpid, hlost⟩ := hrun
  have hreach : machine.Reach Any (boot smallBoot) afterLong := .accepts .start haccepts
  have hothers := (h afterLong ⟨smallBoot, hreach⟩ hen 2 hfork ⟨14, by decide, hnul⟩).others 3 (by decide)
  rw [hothers, hpid] at hlost
  cases hlost

end OsState

end SengOS
