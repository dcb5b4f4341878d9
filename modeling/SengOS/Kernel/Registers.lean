import SengOS.Kernel.ForkStack

/-!
# The registers of an interrupted process

The entry points of `switch.asm`: the CPU and `pushad` push the registers, the C function
answers with a stack pointer, `popad` and `iretd` pop them from there. What is pushed is
popped again, also on another stack at another time.
-/

namespace SengOS

/-- The registers that an interrupt saves, in the order of the frame, and the stack pointer. -/
@[ext]
structure Registers where
  edi : Word
  esi : Word
  ebp : Word
  esp : Word
  ebx : Word
  edx : Word
  ecx : Word
  eax : Word
  eip : Word
  cs : Word
  eflags : Word
  deriving DecidableEq

namespace Kernel

variable {m : Memory} {ws : List Word} {sp a : Word}

theorem pushes_cons (w : Word) : (w :: ws).foldl push (m, sp) =
    ws.foldl push (m.storeWord (sp - 4#32) w, sp - 4#32) := rfl

theorem pushes_sp (h : 4 * ws.length ≤ sp.toNat) :
    (ws.foldl push (m, sp)).2.toNat = sp.toNat - 4 * ws.length := by
  induction ws generalizing m sp with
  | nil => rfl
  | cons w ws ih =>
    rw [List.length_cons] at h
    have hsp : (sp - 4#32).toNat = sp.toNat - 4 := by bv_omega
    rw [pushes_cons, ih (by omega), hsp, List.length_cons]
    omega

/-- Pushes write between the new stack pointer and the old one. -/
theorem pushes_ne (h : 4 * ws.length ≤ sp.toNat)
    (ha : a.toNat < sp.toNat - 4 * ws.length ∨ sp.toNat ≤ a.toNat) :
    (ws.foldl push (m, sp)).1 a = m a := by
  induction ws generalizing m sp with
  | nil => rfl
  | cons w ws ih =>
    rw [List.length_cons] at h ha
    have hsp : (sp - 4#32).toNat = sp.toNat - 4 := by bv_omega
    rw [pushes_cons, ih (by omega) (by omega)]
    exact Memory.storeWord_ne (by omega) (by omega)

theorem pushes_load {i : Nat} (h : 4 * ws.length ≤ sp.toNat) (hi : i < ws.length) :
    (ws.foldl push (m, sp)).1.loadWord (sp - BitVec.ofNat 32 (4 * (i + 1))) = ws[i] := by
  induction ws generalizing m sp i with
  | nil => cases hi
  | cons w ws ih =>
    rw [List.length_cons] at h hi
    have hsp : (sp - 4#32).toNat = sp.toNat - 4 := by bv_omega
    rw [pushes_cons]
    cases i with
    | zero =>
      -- the first word lies above all later ones
      have hload : (ws.foldl push (m.storeWord (sp - 4#32) w, sp - 4#32)).1.loadWord (sp - 4#32) =
          (m.storeWord (sp - 4#32) w).loadWord (sp - 4#32) := by
        apply Memory.loadWord_congr
        intro j hj
        apply pushes_ne (by omega)
        right
        bv_omega
      rw [List.getElem_cons_zero]
      exact hload.trans (Memory.loadWord_storeWord _ _ _)
    | succ i =>
      have hword := @ih (m.storeWord (sp - 4#32) w) (sp - 4#32) i (by omega) (by omega)
      have haddr : sp - 4#32 - BitVec.ofNat 32 (4 * (i + 1)) =
          sp - BitVec.ofNat 32 (4 * (i + 1 + 1)) := by bv_omega
      rw [List.getElem_cons_succ, ← haddr]
      exact hword

end Kernel

namespace Registers

/-- What the CPU and `pushad` push; `pushad` saves the stack pointer it starts from. -/
def image (r : Registers) : List Word :=
  [r.eflags, r.cs, r.eip, r.eax, r.ecx, r.edx, r.ebx, r.esp - 12#32, r.ebp, r.esi, r.edi]

/-- Where the saved registers lie. -/
def contextEsp (r : Registers) : Word := r.esp - 44#32

/-- Memory at the call of the C function. -/
def save (r : Registers) (m : Memory) : Memory := (r.image.foldl Kernel.push (m, r.esp)).1

/-- `popad` and `iretd`; the saved stack pointer is skipped. -/
def restore (m : Memory) (sp : Word) : Registers where
  edi := m.loadWord sp
  esi := m.loadWord (sp + 4#32)
  ebp := m.loadWord (sp + 8#32)
  esp := sp + 44#32
  ebx := m.loadWord (sp + 16#32)
  edx := m.loadWord (sp + 20#32)
  ecx := m.loadWord (sp + 24#32)
  eax := m.loadWord (sp + 28#32)
  eip := m.loadWord (sp + 32#32)
  cs := m.loadWord (sp + 36#32)
  eflags := m.loadWord (sp + 40#32)

/-- The frame of eleven words at `sp` fits into the address space. -/
def Fits (sp : Word) : Prop := sp.toNat + 44 ≤ 2 ^ 32

variable {r : Registers} {m m' : Memory} {sp a : Word}

theorem contextEsp_toNat (h : 44 ≤ r.esp.toNat) : r.contextEsp.toNat = r.esp.toNat - 44 := by
  unfold contextEsp
  bv_omega

theorem save_ne (h : 44 ≤ r.esp.toNat) (ha : a.toNat < r.contextEsp.toNat ∨ r.esp.toNat ≤ a.toNat) :
    r.save m a = m a := by
  rw [contextEsp_toNat h] at ha
  exact Kernel.pushes_ne h ha

/-- A frame that nobody writes to keeps the registers. -/
theorem restore_congr (h : Fits sp)
    (hm : ∀ a : Word, sp.toNat ≤ a.toNat → a.toNat < sp.toNat + 44 → m' a = m a) :
    restore m' sp = restore m sp := by
  have hword (w : Word) (hlo : sp.toNat ≤ w.toNat) (hhi : w.toNat + 4 ≤ sp.toNat + 44) :
      m'.loadWord w = m.loadWord w := by
    apply Memory.loadWord_congr
    intro i hi
    unfold Fits at h
    apply hm <;> bv_omega
  unfold Fits at h
  unfold restore
  congr 1 <;> apply hword <;> bv_omega

/-- The frame that eleven pushes make. -/
theorem restore_pushes (h : 44 ≤ sp.toNat) (eflags cs eip eax ecx edx ebx skipped ebp esi edi : Word) :
    restore ([eflags, cs, eip, eax, ecx, edx, ebx, skipped, ebp, esi, edi].foldl Kernel.push (m, sp)).1
      (sp - 44#32) = ⟨edi, esi, ebp, sp, ebx, edx, ecx, eax, eip, cs, eflags⟩ := by
  generalize hws : [eflags, cs, eip, eax, ecx, edx, ebx, skipped, ebp, esi, edi] = ws
  have hfits : 4 * ws.length ≤ sp.toNat := by rw [← hws]; exact h
  have hword (i : Nat) {v : Word} (hv : ws[i]? = some v) {w : Word}
      (hw : w = sp - BitVec.ofNat 32 (4 * (i + 1))) : (ws.foldl Kernel.push (m, sp)).1.loadWord w = v := by
    obtain ⟨hi, rfl⟩ := List.getElem?_eq_some_iff.mp hv
    rw [hw]
    exact Kernel.pushes_load hfits hi
  have hslot (j : Nat) (hj : j ≤ 10) : sp - 44#32 + BitVec.ofNat 32 (4 * j) =
      sp - BitVec.ofNat 32 (4 * (10 - j + 1)) := by
    bv_omega
  subst hws
  ext1
  case edi =>
    have := hslot 0 (by decide)
    rw [Nat.mul_zero, BitVec.add_zero] at this
    exact hword 10 rfl this
  case esi => exact hword 9 rfl (hslot 1 (by decide))
  case ebp => exact hword 8 rfl (hslot 2 (by decide))
  case esp => exact BitVec.sub_add_cancel _ _
  case ebx => exact hword 6 rfl (hslot 4 (by decide))
  case edx => exact hword 5 rfl (hslot 5 (by decide))
  case ecx => exact hword 4 rfl (hslot 6 (by decide))
  case eax => exact hword 3 rfl (hslot 7 (by decide))
  case eip => exact hword 2 rfl (hslot 8 (by decide))
  case cs => exact hword 1 rfl (hslot 9 (by decide))
  case eflags => exact hword 0 rfl (hslot 10 (by decide))

/-- What the entry point saves, its end restores. -/
theorem restore_save (h : 44 ≤ r.esp.toNat) : restore (r.save m) r.contextEsp = r :=
  restore_pushes h _ _ _ _ _ _ _ _ _ _ _

/-- The registers of a process that has not run yet. -/
def initial (bootstrap stackTop : Word) : Registers where
  edi := 0#32
  esi := 0#32
  ebp := 0#32
  esp := stackTop
  ebx := 0#32
  edx := 0#32
  ecx := 0#32
  eax := 0#32
  eip := bootstrap
  cs := 0x8#32
  eflags := 0x202#32

/-- The frame that `build_initial_context` makes. -/
theorem restore_initial (h : 44 ≤ sp.toNat) (bootstrap : Word) :
    restore ((Kernel.initialFrame bootstrap).foldl Kernel.push (m, sp)).1 (sp - 44#32) =
      initial bootstrap sp :=
  restore_pushes h _ _ _ _ _ _ _ _ _ _ _

end Registers

end SengOS
