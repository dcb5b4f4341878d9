import SengOS.Lib.Extents
import SengOS.Kernel.Footprint
import SengOS.Kernel.Integrity

/-!
# The computer

The CPU and its memory around the kernel. A process runs its own code, which may do
anything to its registers and write anywhere; it calls functions of the kernel; and the four
interrupts of `switch.asm` take the CPU away from it. Their C functions run on the stack of
the interrupted process, below the frame that holds its registers.
-/

namespace SengOS

/-- What the linker and `_start` make of the kernel. -/
structure Image extends OsState.Boot where
  stackBottom : Word
  /-- How far the C functions reach below the saved frame. -/
  depth : Nat
  linked : stackBottom.toNat + 16384 ≤ kernelEnd.toNat
  fits : kernelEnd.toNat ≤ 0xFFFFF000

namespace Image

/-- The stack of a process; the shell runs on the one of `_start`. -/
def stackOf (i : Image) (k : Kernel) (p : PcbRef) : Extent :=
  if p = 0 then ⟨i.stackBottom.toNat, 16384⟩ else ⟨(k.pcbs p).stackBase.toNat, 4096⟩

end Image

structure Computer where
  tenancy : Tenancy
  regs : Registers
  /-- The stack that the CPU is on, also when the process on it has given it back. -/
  stack : Extent

inductive Interrupt
  | irq0
  | int30
  | int31
  | int32
  deriving DecidableEq

inductive Event
  /-- The process on the CPU executes code of its own. -/
  | run (regs : Registers) (stores : List (Word × Byte))
  | call (u : FrameUse)
  /-- An interrupt; its C function leaves bytes of `before` and `after` below the frame. -/
  | interrupt (i : Interrupt) (before after : Memory)

namespace Memory

def store (m : Memory) (stores : List (Word × Byte)) : Memory :=
  stores.foldl (fun m s => Function.update m s.1 s.2) m

/-- The part of a stack that a C function uses. -/
def scratch (m : Memory) (sp : Word) (depth : Nat) (bytes : Memory) : Memory := fun a =>
  if sp.toNat ≤ a.toNat + depth ∧ a.toNat < sp.toNat then bytes a else m a

theorem store_ne {m : Memory} {stores : List (Word × Byte)} {a : Word}
    (h : ∀ s ∈ stores, s.1 ≠ a) : m.store stores a = m a := by
  induction stores generalizing m with
  | nil => rfl
  | cons s stores ih =>
    rw [store, List.foldl_cons]
    refine (ih fun t ht => h t (List.mem_cons_of_mem _ ht)).trans ?_
    exact Function.update_of_ne (h s List.mem_cons_self).symm _ _

theorem scratch_ne {m bytes : Memory} {sp a : Word} {depth : Nat}
    (h : a.toNat + depth < sp.toNat ∨ sp.toNat ≤ a.toNat) : m.scratch sp depth bytes a = m a := by
  rw [scratch, if_neg (by omega)]

end Memory

namespace Interrupt

/-- The C function behind the entry point; `int $0x32` passes the saved EAX. -/
def action (contextEsp eax : Word) : Interrupt → Action
  | .irq0 => .tick contextEsp
  | .int30 => .yield contextEsp
  | .int31 => .fork contextEsp
  | .int32 => .kill contextEsp eax

end Interrupt

def OsState.withMem (s : OsState) (mem : Memory) : OsState := { s with kernel := s.kernel.withMem mem }

namespace Tenancy

def withMem (t : Tenancy) (mem : Memory) : Tenancy := { t with os := t.os.withMem mem }

/-- The functions that a process calls without an interrupt. One that has ended calls
only `process_exit` again. -/
def MayCall (t : Tenancy) : FrameUse → Prop
  | .os (.fork _) | .os (.tick _) | .os (.yield _) | .os (.kill _ _) => False
  | .os .exit => t.os.Enabled .exit ∨ t.os.Late .exit
  | .os a => t.os.Enabled a
  | .alloc => t.os.Idle
  | .free addr => t.os.Idle ∧ addr ∈ t.clients

instance (t : Tenancy) : (u : FrameUse) → Decidable (t.MayCall u)
  | .os a => by
    apply Action.casesOn (motive := fun a => Decidable (t.MayCall (.os a))) a <;> intros <;>
      unfold MayCall <;> infer_instance
  | .alloc => inferInstanceAs (Decidable t.os.Idle)
  | .free addr => inferInstanceAs (Decidable (t.os.Idle ∧ addr ∈ t.clients))

end Tenancy

namespace Computer

def kernel (c : Computer) : Kernel := c.tenancy.os.kernel

def mem (c : Computer) : Memory := c.kernel.mem

/-- The argument of `kill`, as its entry point reads it from the frame. -/
def killArg (c : Computer) : Word := (c.regs.save c.mem).loadWord (c.regs.contextEsp + 28#32)

/-- The kernel's state at the call of the C function. -/
def entered (image : Image) (c : Computer) (before : Memory) : Tenancy :=
  c.tenancy.withMem ((c.regs.save c.mem).scratch c.regs.contextEsp image.depth before)

/-- The state that the C function returns in. -/
def handled (image : Image) (c : Computer) (i : Interrupt) (before : Memory) : Tenancy :=
  (c.entered image before).next (.os (i.action c.regs.contextEsp c.killArg))

/-- An interrupt: the entry point loads the stack pointer that the C function returned. -/
def interrupt (image : Image) (c : Computer) (i : Interrupt) (before after : Memory) : Computer :=
  let t := c.handled image i before
  let mem := t.os.kernel.mem.scratch c.regs.contextEsp image.depth after
  { tenancy := t.withMem mem
    regs := Registers.restore mem t.os.esp
    stack := if t.os.kernel.current = c.kernel.current then c.stack
      else image.stackOf t.os.kernel t.os.kernel.current }

def next (image : Image) (c : Computer) : Event → Computer
  | .run regs stores => { c with tenancy := c.tenancy.withMem (c.mem.store stores), regs := regs }
  | .call u => { c with tenancy := c.tenancy.next u }
  | .interrupt i before after => c.interrupt image i before after

def Enabled (c : Computer) : Event → Prop
  | .run _ _ => True
  | .call u => c.tenancy.MayCall u
  | .interrupt i _ _ => c.tenancy.os.Enabled (i.action c.regs.contextEsp c.killArg)

instance (c : Computer) : (e : Event) → Decidable (c.Enabled e)
  | .run _ _ => .isTrue trivial
  | .call u => inferInstanceAs (Decidable (c.tenancy.MayCall u))
  | .interrupt i _ _ =>
    inferInstanceAs (Decidable (c.tenancy.os.Enabled (i.action c.regs.contextEsp c.killArg)))

def machine (image : Image) : Machine Computer Event := ⟨Enabled, next image⟩

instance (image : Image) (c : Computer) (e : Event) : Decidable ((machine image).enabled c e) :=
  inferInstanceAs (Decidable (c.Enabled e))

/-- `kernel_main` starts on the stack of `_start`. -/
def boot (image : Image) (regs : Registers) : Computer :=
  ⟨Tenancy.boot image.toBoot, regs, ⟨image.stackBottom.toNat, 16384⟩⟩

def Alive (c : Computer) (p : PcbRef) : Prop := (c.kernel.pcbs p).state ≠ .terminated

instance (c : Computer) (p : PcbRef) : Decidable (c.Alive p) := inferInstanceAs (Decidable (_ ≠ _))

/-- The address is in the used part of the stack of a process that waits for the CPU. -/
def Waiting (image : Image) (c : Computer) (q : PcbRef) (a : Word) : Prop :=
  c.Alive q ∧ q ≠ c.kernel.current ∧ (image.stackOf c.kernel q).Has a.toNat ∧
    (c.kernel.pcbs q).esp ≤ a

instance (e : Extent) (x : Nat) : Decidable (e.Has x) := inferInstanceAs (Decidable (_ ∧ _))

instance (image : Image) (c : Computer) (q : PcbRef) (a : Word) : Decidable (c.Waiting image q a) :=
  inferInstanceAs (Decidable (_ ∧ _ ∧ _ ∧ _))

/-- No process writes to the stack of another or overruns its own, and no creation finds
memory exhausted. -/
def Polite (image : Image) (c : Computer) : Event → Prop
  | .run _ stores => ∀ s ∈ stores, ∀ q, ¬ c.Waiting image q s.1
  | .call (.os a) => c.tenancy.os.FrameAvailable a
  | .call _ => True
  | .interrupt _ _ _ => c.stack.start + image.depth + 44 ≤ c.regs.esp.toNat ∧
      c.regs.esp.toNat ≤ c.stack.start + c.stack.size

instance (image : Image) (c : Computer) : (e : Event) → Decidable (c.Polite image e)
  | .run _ stores => List.decidableBAll (fun s : Word × Byte => ∀ q, ¬ c.Waiting image q s.1) stores
  | .call (.os a) => inferInstanceAs (Decidable (c.tenancy.os.FrameAvailable a))
  | .call .alloc => .isTrue trivial
  | .call (.free _) => .isTrue trivial
  | .interrupt _ _ _ => inferInstanceAs (Decidable (_ ∧ _))

/-! ## The context of a process -/

/-- The registers of a process: on the CPU or in the frame that the interrupt has saved. -/
def registers (c : Computer) (p : PcbRef) : Registers :=
  if p = c.kernel.current then c.regs else Registers.restore c.mem (c.kernel.pcbs p).esp

/-- The process goes on with the same registers and the same used part of its stack. -/
structure SameContext (image : Image) (c c' : Computer) (p : PcbRef) : Prop where
  registers : c'.registers p = c.registers p
  stack : image.stackOf c'.kernel p = image.stackOf c.kernel p
  bytes : ∀ a : Word, (image.stackOf c.kernel p).Has a.toNat → (c.registers p).esp ≤ a →
    c'.mem a = c.mem a

theorem SameContext.refl (image : Image) (c : Computer) (p : PcbRef) : c.SameContext image c p :=
  ⟨rfl, rfl, fun _ _ _ => rfl⟩

theorem SameContext.trans {image : Image} {c c' c'' : Computer} {p : PcbRef}
    (h : c.SameContext image c' p) (h' : c'.SameContext image c'' p) : c.SameContext image c'' p := by
  refine ⟨h'.registers.trans h.registers, h'.stack.trans h.stack, fun a ha hsp => ?_⟩
  rw [h'.bytes a (by rw [h.stack]; exact ha) (by rw [h.registers]; exact hsp), h.bytes a ha hsp]

/-- The event is none of the process's doing: neither its own code nor one of the two system
calls that change its registers, nor its end. -/
def Rests (p : PcbRef) (c : Computer) : Event → Prop
  | .run _ _ => p ≠ c.kernel.current
  | .call (.os a) => c.kernel.slotLeft a ≠ some p
  | .call _ => True
  | .interrupt .int31 _ _ => p ≠ c.kernel.current
  | .interrupt .int32 _ _ => p ≠ c.kernel.current ∧
      c.kernel.slotLeft (.kill c.regs.contextEsp c.killArg) ≠ some p
  | .interrupt _ _ _ => True

end Computer

end SengOS
