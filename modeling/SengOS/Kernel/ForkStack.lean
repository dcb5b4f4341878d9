import SengOS.Kernel.ForkName
import SengOS.Kernel.Creation
import SengOS.Kernel.StackOwners

/-!
# The stack of a forked child

`scheduler_fork` copies the parent's stack byte by byte, moves the saved registers that
point into it, and writes one return value into each copy of EAX. The frames of the two
stacks are different, so the copy reads nothing that it has written.
-/

namespace SengOS

namespace Memory

variable {m : Memory} {a p w : Word} {n : Nat}

/-! ## Loads behind stores -/

theorem storeWord_ne (h : a.toNat < p.toNat ∨ p.toNat + 4 ≤ a.toNat) (hp : p.toNat + 4 ≤ 2 ^ 32) :
    m.storeWord p w a = m a := by
  have h0 : a ≠ p := by bv_omega
  have h1 : a ≠ p + 1#32 := by bv_omega
  have h2 : a ≠ p + 2#32 := by bv_omega
  have h3 : a ≠ p + 3#32 := by bv_omega
  rw [storeWord, if_neg h0, if_neg h1, if_neg h2, if_neg h3]

theorem loadWord_congr {m' : Memory} {b : Word}
    (h : ∀ i, i < 4 → m' (b + BitVec.ofNat 32 i) = m (a + BitVec.ofNat 32 i)) :
    m'.loadWord b = m.loadWord a := by
  have h0 := h 0 (by decide)
  rw [BitVec.add_zero, BitVec.add_zero] at h0
  rw [loadWord, loadWord, h0, h 1 (by decide), h 2 (by decide), h 3 (by decide)]

theorem loadWord_storeWord_ne (h : a.toNat + 4 ≤ p.toNat ∨ p.toNat + 4 ≤ a.toNat)
    (ha : a.toNat + 4 ≤ 2 ^ 32) (hp : p.toNat + 4 ≤ 2 ^ 32) :
    (m.storeWord p w).loadWord a = m.loadWord a := by
  apply loadWord_congr
  intro i hi
  apply storeWord_ne _ hp
  bv_omega

/-! ## The copy loop -/

theorem copyBytes_succ (m : Memory) (src dst : Word) (n : Nat) :
    m.copyBytes src dst (n + 1) = Function.update (m.copyBytes src dst n)
      (dst + BitVec.ofNat 32 n) (m.copyBytes src dst n (src + BitVec.ofNat 32 n)) := by
  rw [copyBytes, List.range_succ, List.foldl_append]
  rfl

theorem copyBytes_ne {src dst : Word} (h : ∀ i, i < n → a ≠ dst + BitVec.ofNat 32 i) :
    m.copyBytes src dst n a = m a := by
  induction n with
  | zero => rfl
  | succ n ih =>
    rw [copyBytes_succ, Function.update_of_ne (h n (Nat.lt_succ_self n))]
    exact ih fun i hi => h i (Nat.lt_succ_of_lt hi)

/-- A copy onto bytes that it does not read. -/
theorem copyBytes_dst {src dst : Word} {o : Nat} (hn : n ≤ 2 ^ 32) (ho : o < n)
    (h : ∀ i j, i < n → j < n → src + BitVec.ofNat 32 i ≠ dst + BitVec.ofNat 32 j) :
    m.copyBytes src dst n (dst + BitVec.ofNat 32 o) = m (src + BitVec.ofNat 32 o) := by
  induction n with
  | zero => cases ho
  | succ n ih =>
    rw [copyBytes_succ]
    by_cases hon : o = n
    · rw [hon, Function.update_self]
      exact copyBytes_ne fun j hj => h n j (Nat.lt_succ_self n) (Nat.lt_succ_of_lt hj)
    · have hne : dst + BitVec.ofNat 32 o ≠ dst + BitVec.ofNat 32 n := by bv_omega
      rw [Function.update_of_ne hne]
      exact ih (by omega) (by omega) fun i j hi hj => h i j (by omega) (by omega)

end Memory

namespace Kernel

variable {k : Kernel} {child : PcbRef} {contextEsp frame : Word} {m : Memory}

/-! ## Relocation -/

/-- A pointer into the parent's stack moves to the child's. -/
def moved (parent : Pcb) (delta v : Word) : Word :=
  if parent.stackBase ≤ v ∧ v < parent.stackTop then v + delta else v

theorem relocateSlot_load {parent : Pcb} {delta ctx : Word} {i j : Nat} (hi : i < 8) (hj : j < 8)
    (hctx : ctx.toNat + 32 ≤ 2 ^ 32) :
    (relocateSlot parent delta ctx m j).loadWord (ctx + BitVec.ofNat 32 (4 * i)) =
      if i = j then moved parent delta (m.loadWord (ctx + BitVec.ofNat 32 (4 * i)))
      else m.loadWord (ctx + BitVec.ofNat 32 (4 * i)) := by
  rw [relocateSlot]
  by_cases hij : i = j
  · rw [if_pos hij, hij, moved]
    split
    · exact Memory.loadWord_storeWord _ _ _
    · rfl
  · rw [if_neg hij]
    split
    · apply Memory.loadWord_storeWord_ne <;> bv_omega
    · rfl

theorem relocateSlot_ne {parent : Pcb} {delta ctx a : Word} {j : Nat} (hj : j < 8)
    (ha : a.toNat < ctx.toNat ∨ ctx.toNat + 32 ≤ a.toNat) (hctx : ctx.toNat + 32 ≤ 2 ^ 32) :
    relocateSlot parent delta ctx m j a = m a := by
  rw [relocateSlot]
  split
  · apply Memory.storeWord_ne <;> bv_omega
  · rfl

/-- The loop has moved the slots below `n` and left the rest of the frame alone. -/
theorem relocateSlots_load {parent : Pcb} {delta ctx : Word} {n i : Nat} (hn : n ≤ 8) (hi : i < 8)
    (hctx : ctx.toNat + 32 ≤ 2 ^ 32) :
    ((List.range n).foldl (relocateSlot parent delta ctx) m).loadWord (ctx + BitVec.ofNat 32 (4 * i)) =
      if i < n then moved parent delta (m.loadWord (ctx + BitVec.ofNat 32 (4 * i)))
      else m.loadWord (ctx + BitVec.ofNat 32 (4 * i)) := by
  induction n with
  | zero => rfl
  | succ n ih =>
    rw [List.range_succ, List.foldl_append, List.foldl_cons, List.foldl_nil,
      relocateSlot_load hi hn hctx, ih (Nat.le_of_succ_le hn)]
    by_cases hin : i = n
    · rw [if_pos hin, if_neg (by omega), if_pos (by omega)]
    · rw [if_neg hin]
      by_cases hlt : i < n
      · rw [if_pos hlt, if_pos (by omega)]
      · rw [if_neg hlt, if_neg (by omega)]

theorem relocateSlots_ne {parent : Pcb} {delta ctx a : Word} {n : Nat} (hn : n ≤ 8)
    (ha : a.toNat < ctx.toNat ∨ ctx.toNat + 32 ≤ a.toNat) (hctx : ctx.toNat + 32 ≤ 2 ^ 32) :
    (List.range n).foldl (relocateSlot parent delta ctx) m a = m a := by
  induction n with
  | zero => rfl
  | succ n ih =>
    rw [List.range_succ, List.foldl_append, List.foldl_cons, List.foldl_nil,
      relocateSlot_ne hn ha hctx, ih (Nat.le_of_succ_le hn)]

/-! ## The two stacks -/

/-- The stack at `base` and the new one at `frame` do not overlap, and the interrupt frame,
of eleven words, lies in the first. -/
structure StacksApart (base frame contextEsp : Word) : Prop where
  parentFits : base.toNat + 4096 ≤ 2 ^ 32
  childFits : frame.toNat + 4096 ≤ 2 ^ 32
  apart : base.toNat + 4096 ≤ frame.toNat ∨ frame.toNat + 4096 ≤ base.toNat
  low : base.toNat ≤ contextEsp.toNat
  high : contextEsp.toNat + 44 ≤ base.toNat + 4096

section
variable (h : StacksApart k.cur.stackBase frame contextEsp)
include h

theorem StacksApart.childCtx : (contextEsp + (frame - k.cur.stackBase)).toNat =
    frame.toNat + (contextEsp.toNat - k.cur.stackBase.toNat) := by
  obtain ⟨hbase, hframe, _, hlow, hhigh⟩ := h
  bv_omega

/-- The copy reads the parent's stack as it was. -/
theorem copyBytes_child {o : Nat} (ho : o < 4096) :
    k.mem.copyBytes k.cur.stackBase frame 4096 (frame + BitVec.ofNat 32 o) =
      k.mem (k.cur.stackBase + BitVec.ofNat 32 o) := by
  obtain ⟨hbase, hframe, hapart, _, _⟩ := h
  apply Memory.copyBytes_dst (by decide) ho
  intro i j hi hj
  bv_omega

theorem copyBytes_elsewhere {a : Word}
    (ha : a.toNat < frame.toNat ∨ frame.toNat + 4096 ≤ a.toNat) :
    k.mem.copyBytes k.cur.stackBase frame 4096 a = k.mem a := by
  obtain ⟨_, hframe, _, _, _⟩ := h
  apply Memory.copyBytes_ne
  intro i hi
  bv_omega

/-- Outside the child's stack the memory is as before. -/
theorem forkMem_elsewhere {a : Word} (ha : a.toNat < frame.toNat ∨ frame.toNat + 4096 ≤ a.toNat) :
    k.forkMem contextEsp frame a = k.mem a := by
  have hctx := h.childCtx
  have hcopy := copyBytes_elsewhere h ha
  obtain ⟨hbase, hframe, _, hlow, hhigh⟩ := h
  rw [forkMem]
  rw [Memory.storeWord_ne (by bv_omega) (by bv_omega),
    relocateSlots_ne (Nat.le_refl 8) (by omega) (by omega), hcopy]

/-- Outside the saved registers the child's stack is a copy. -/
theorem forkMem_copy {o : Nat} (ho : o < 4096)
    (hout : o < contextEsp.toNat - k.cur.stackBase.toNat ∨
      contextEsp.toNat - k.cur.stackBase.toNat + 32 ≤ o) :
    k.forkMem contextEsp frame (frame + BitVec.ofNat 32 o) =
      k.mem (k.cur.stackBase + BitVec.ofNat 32 o) := by
  have hctx := h.childCtx
  have hcopy := copyBytes_child h ho
  obtain ⟨hbase, hframe, _, hlow, hhigh⟩ := h
  rw [forkMem]
  rw [Memory.storeWord_ne (by bv_omega) (by bv_omega),
    relocateSlots_ne (Nat.le_refl 8) (by bv_omega) (by omega), hcopy]

/-- The child's saved registers. -/
theorem forkMem_slot {i : Nat} (hi : i < 8) :
    (k.forkMem contextEsp frame).loadWord
        (contextEsp + (frame - k.cur.stackBase) + BitVec.ofNat 32 (4 * i)) =
      if i = 7 then 0#32
      else moved k.cur (frame - k.cur.stackBase) (k.frameWord contextEsp i) := by
  have hctx := h.childCtx
  have hcopy : (k.mem.copyBytes k.cur.stackBase frame 4096).loadWord
      (contextEsp + (frame - k.cur.stackBase) + BitVec.ofNat 32 (4 * i)) = k.frameWord contextEsp i := by
    apply Memory.loadWord_congr
    intro j hj
    have hchild := copyBytes_child h (o := contextEsp.toNat - k.cur.stackBase.toNat + 4 * i + j)
      (by have := h.high; have := h.low; omega)
    obtain ⟨hbase, hframe, _, hlow, hhigh⟩ := h
    convert hchild using 2 <;> bv_omega
  obtain ⟨hbase, hframe, _, hlow, hhigh⟩ := h
  rw [forkMem]
  split
  · rename_i h7
    rw [h7]
    exact Memory.loadWord_storeWord _ _ _
  · rw [Memory.loadWord_storeWord_ne (by bv_omega) (by bv_omega) (by bv_omega),
      relocateSlots_load (Nat.le_refl 8) hi (by omega), if_pos hi, hcopy]

end

def withMem (k : Kernel) (mem : Memory) : Kernel := { k with mem := mem }

@[simp] theorem withMem_cur (k : Kernel) (mem : Memory) : (k.withMem mem).cur = k.cur := rfl

@[simp] theorem withMem_pmm (k : Kernel) (mem : Memory) : (k.withMem mem).pmm = k.pmm := rfl

@[simp] theorem withMem_freeSlot (k : Kernel) (mem : Memory) : (k.withMem mem).freeSlot = k.freeSlot :=
  rfl

@[simp] theorem withMem_forkTarget (k : Kernel) (mem : Memory) :
    (k.withMem mem).forkTarget = k.forkTarget := by
  rw [forkTarget, forkTarget, withMem_cur, withMem_pmm, withMem_freeSlot]

/-- Where the interrupt frame lies in the parent's stack. -/
def frameOffset (k : Kernel) (contextEsp : Word) : Nat := contextEsp.toNat - k.cur.stackBase.toNat

/-- What a fork makes of the two stacks, byte by byte, and word by word where a word is
not one of the eight saved registers. -/
structure StackCloned (k : Kernel) (contextEsp : Word) (child : PcbRef) (k' : Kernel) : Prop where
  bytes : ∀ o, o < 4096 →
    (o < k.frameOffset contextEsp ∨ k.frameOffset contextEsp + 32 ≤ o) →
    k'.mem ((k'.pcbs child).stackBase + BitVec.ofNat 32 o) = k.mem (k.cur.stackBase + BitVec.ofNat 32 o)
  words : ∀ o, o + 4 ≤ 4096 →
    (o + 4 ≤ k.frameOffset contextEsp ∨ k.frameOffset contextEsp + 32 ≤ o) →
    k'.mem.loadWord ((k'.pcbs child).stackBase + BitVec.ofNat 32 o) =
      k.mem.loadWord (k.cur.stackBase + BitVec.ofNat 32 o)
  slots : ∀ i, i < 7 → k'.frameWord (k'.pcbs child).esp i =
    if k.cur.stackBase ≤ k.frameWord contextEsp i ∧ k.frameWord contextEsp i < k.cur.stackTop then
      (k'.pcbs child).stackBase + (k.frameWord contextEsp i - k.cur.stackBase)
    else k.frameWord contextEsp i
  eax : k'.frameWord (k'.pcbs child).esp 7 = 0#32
  esp : (k'.pcbs child).esp.toNat = (k'.pcbs child).stackBase.toNat + k.frameOffset contextEsp
  top : (k'.pcbs child).stackTop = (k'.pcbs child).stackBase + 4096#32
  parent : ∀ a, k.cur.stackBase.toNat ≤ a.toNat → a.toNat < k.cur.stackBase.toNat + 4096 →
    (a.toNat < contextEsp.toNat + 28 ∨ contextEsp.toNat + 32 ≤ a.toNat) → k'.mem a = k.mem a
  pid : k'.frameWord contextEsp 7 = (k'.pcbs child).pid

theorem schedulerFork_cloned (hfork : k.forkTarget = some child)
    (h : StacksApart k.cur.stackBase k.pmm.pmmAllocFrame.1 contextEsp) :
    StackCloned k contextEsp child (k.schedulerFork contextEsp).2 := by
  obtain ⟨_, hbase, htop, hesp⟩ := (schedulerFork_spec hfork contextEsp).stack
  have hmem := schedulerFork_mem hfork contextEsp
  have hctx := h.childCtx
  have hbytes : ∀ o, o < 4096 →
      (o < k.frameOffset contextEsp ∨ k.frameOffset contextEsp + 32 ≤ o) →
      (k.schedulerFork contextEsp).2.mem (k.pmm.pmmAllocFrame.1 + BitVec.ofNat 32 o) =
        k.mem (k.cur.stackBase + BitVec.ofNat 32 o) := by
    intro o ho hout
    rw [hmem, Memory.storeWord_ne, forkMem_copy h ho hout]
    all_goals
      obtain ⟨hb, hf, hapart, hlow, hhigh⟩ := h
      bv_omega
  -- the parent's EAX is outside the child's frame
  have hslots : ∀ i, i < 8 → (k.schedulerFork contextEsp).2.frameWord
        (contextEsp + (k.pmm.pmmAllocFrame.1 - k.cur.stackBase)) i =
      if i = 7 then 0#32
      else moved k.cur (k.pmm.pmmAllocFrame.1 - k.cur.stackBase) (k.frameWord contextEsp i) := by
    intro i hi
    rw [frameWord, hmem, Memory.loadWord_storeWord_ne, forkMem_slot h hi]
    all_goals
      obtain ⟨hb, hf, hapart, hlow, hhigh⟩ := h
      bv_omega
  constructor
  case bytes =>
    rw [hbase]
    exact hbytes
  case words =>
    intro o ho hout
    rw [hbase]
    apply Memory.loadWord_congr
    intro i hi
    have hbyte := hbytes (o + i) (by omega) (by omega)
    rwa [BitVec.ofNat_add, ← BitVec.add_assoc, ← BitVec.add_assoc] at hbyte
  case slots =>
    intro i hi
    rw [hesp, hslots i (by omega), if_neg (by omega), moved, hbase]
    split
    · bv_omega
    · rfl
  case eax =>
    rw [hesp, hslots 7 (by decide), if_pos rfl]
  case esp => rw [hesp, hctx, hbase, frameOffset]
  case top => rw [htop, hbase]
  case parent =>
    intro a hlo hhi hout
    rw [hmem, Memory.storeWord_ne, forkMem_elsewhere h]
    all_goals
      obtain ⟨hb, hf, hapart, hlow, hhigh⟩ := h
      bv_omega
  case pid =>
    rw [frameWord, hmem, schedulerFork_pcbs hfork, if_pos rfl]
    exact Memory.loadWord_storeWord _ _ _

end Kernel

/-! ## Any run -/

namespace Tenancy

variable {b : OsState.Boot} {t : Tenancy} {child : PcbRef} {contextEsp : Word}

/-- The frame of a new stack and the stack of the process on the CPU. -/
theorem Inv.apart (h : t.Inv b) (hfork : t.os.kernel.forkTarget = some child)
    (hlow : t.os.kernel.cur.stackBase.toNat ≤ contextEsp.toNat)
    (hhigh : contextEsp.toNat + 44 ≤ t.os.kernel.cur.stackBase.toNat + 4096) :
    Kernel.StacksApart t.os.kernel.cur.stackBase t.os.kernel.pmm.pmmAllocFrame.1 contextEsp := by
  obtain ⟨hs, hz, _⟩ := Kernel.forkTarget_some hfork
  have hlent := h.allocates hz
  have hcur : t.os.kernel.cur.stackBase ∈ t.os.kernel.stackBases ++ t.clients :=
    List.mem_append_left _ (mem_holdings.mpr ⟨t.os.kernel.current, List.mem_finRange _, hs, rfl⟩)
  have hne : t.os.kernel.cur.stackBase ≠ t.os.kernel.pmm.pmmAllocFrame.1 := by
    intro he
    rw [he] at hcur
    exact (List.nodup_cons.mp hlent.nodup).1 hcur
  obtain ⟨f, hf, hframe, _⟩ := hlent.held_free _ List.mem_cons_self
  obtain ⟨g, hg, hbase, _⟩ := hlent.held_free _ (List.mem_cons_of_mem _ hcur)
  have hfg : f ≠ g := by
    rintro rfl
    exact hne (hbase.trans hframe.symm)
  have hf' := Pmm.frameAddr_toNat hf
  have hg' := Pmm.frameAddr_toNat hg
  rw [hbase] at hlow hhigh ⊢
  rw [hframe]
  constructor <;> omega

/-- In every run, whatever the memory holds: a fork whose interrupt frame lies in the
stack of the caller clones that stack. -/
theorem fork_clones (h : machine.Reach (fun _ _ => True) (boot b) t) (mem : Memory)
    (hfork : (t.os.kernel.withMem mem).forkTarget = some child)
    (hlow : t.os.kernel.cur.stackBase.toNat ≤ contextEsp.toNat)
    (hhigh : contextEsp.toNat + 44 ≤ t.os.kernel.cur.stackBase.toNat + 4096) :
    Kernel.StackCloned (t.os.kernel.withMem mem) contextEsp child
      ((t.os.kernel.withMem mem).schedulerFork contextEsp).2 := by
  have hinv : t.Inv b := h.invariant (boot_inv b) fun t u hi he _ => hi.next u he
  have hapart := hinv.apart (by rwa [Kernel.withMem_forkTarget] at hfork) hlow hhigh
  apply Kernel.schedulerFork_cloned hfork
  rwa [Kernel.withMem_cur, Kernel.withMem_pmm]

/-- Every aligned word of this memory points into the second frame behind the first MiB. -/
def pointers : Memory := fun a => BitVec.extractLsb' (8 * (a.toNat % 4)) 8 0x00101234#32

/-- Process 1 gets the first frame, or the second one while a client holds the first. -/
def aboveRun : List FrameUse := [.os (.create 0x11000#32 none), .os (.yield 0x90000#32)]

def belowRun : List FrameUse :=
  [.alloc, .os (.create 0x11000#32 none), .free 0x100000#32, .os (.yield 0x90000#32)]

def beforeAbove : Tenancy := machine.after (boot OsState.smallBoot) aboveRun

def beforeBelow : Tenancy := machine.after (boot OsState.smallBoot) belowRun

theorem fork_clones_above_and_below :
    Kernel.StackCloned (beforeAbove.os.kernel.withMem pointers) 0x100F00#32 2
        ((beforeAbove.os.kernel.withMem pointers).schedulerFork 0x100F00#32).2 ∧
      Kernel.StackCloned (beforeBelow.os.kernel.withMem pointers) 0x101F00#32 2
        ((beforeBelow.os.kernel.withMem pointers).schedulerFork 0x101F00#32).2 := by
  have habove : machine.Accepts (fun _ _ => True) (boot OsState.smallBoot) aboveRun ∧
      (beforeAbove.os.kernel.withMem pointers).forkTarget = some 2 ∧
      beforeAbove.os.kernel.cur.stackBase = 0x100000#32 := by
    decide +kernel
  have hbelow : machine.Accepts (fun _ _ => True) (boot OsState.smallBoot) belowRun ∧
      (beforeBelow.os.kernel.withMem pointers).forkTarget = some 2 ∧
      beforeBelow.os.kernel.cur.stackBase = 0x101000#32 := by
    decide +kernel
  obtain ⟨haccepts, hfork, hbase⟩ := habove
  obtain ⟨haccepts', hfork', hbase'⟩ := hbelow
  constructor
  · have hreach : machine.Reach (fun _ _ => True) (boot OsState.smallBoot) beforeAbove :=
      .accepts .start haccepts
    apply fork_clones hreach pointers hfork <;> rw [hbase] <;> decide
  · have hreach : machine.Reach (fun _ _ => True) (boot OsState.smallBoot) beforeBelow :=
      .accepts .start haccepts'
    apply fork_clones hreach pointers hfork' <;> rw [hbase'] <;> decide

end Tenancy

end SengOS
