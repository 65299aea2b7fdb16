import EsoHost.Piet.Instruction
import EsoHost.Piet.Program
import EsoHost.Piet.Slide
import EsoHost.Piet.Stack
import EsoHost.Piet.Word
import EsoHost.Status
import EsoHost.Transcript

/-!
# `EsoHost.Piet.Machine`: running a Piet program

The pointer of a machine stands on a codel of a block. Where it goes
next (`Program.move`) depends on the program and the pointer alone:
out of a colored block into a neighbour, executing an instruction on
the way; through white; or nowhere. What an instruction does
(`execute`) depends on the stack, the heading and the transcript.

A read that has to wait leaves the pointer where it is, so that the
next step makes the same move again.
-/

set_option autoImplicit false

namespace EsoHost.Piet

/-- What a read does that finds nothing and must not wait. -/
inductive ExhaustedInput where
  | skip | pushZero | halt
  deriving DecidableEq, Repr

/-! ### Moves -/

/-- A stance in a block. -/
structure Pointer extends Stance where
  block : Nat
  deriving DecidableEq, Repr

/-- What the pointer is to do. -/
inductive Move where
  /-- Walk through white. -/
  | slide (start : Stance)
  /-- Execute an instruction while moving to `arrival`; `value` is the
  size of the block that is left. -/
  | perform (instruction : Instruction) (value : Nat) (arrival : Pointer)
  /-- There is no way out. -/
  | blocked
  deriving DecidableEq, Repr

namespace Program

/-- The first way out of block `id`, trying headings from `h` on. -/
def exit? (p : Program) (id : Nat) (h : Heading) : Option (Heading × Transition) :=
  h.attempts.findSome? fun h' => (p.transition? id h').map fun t => (h', t)

/-- The move from a pointer. A pointer or a transition that names no
block of the program leads nowhere. -/
def move (p : Program) (q : Pointer) : Move :=
  match p.blocks[q.block]? with
  | none => .blocked
  | some block =>
    if block.color = .white then .slide q.toStance
    else
      match p.exit? q.block q.heading with
      | none => .blocked
      | some (heading, t) =>
        match p.blocks[t.target]? with
        | none => .blocked
        | some target =>
          match Instruction.between? block.color target.color with
          | none => .slide ⟨t.entry, heading⟩
          | some instruction => .perform instruction block.size ⟨⟨t.entry, heading⟩, t.target⟩

end Program

/-! ### Instructions -/

/-- What an instruction works on. -/
structure Frame where
  stack : Stack
  heading : Heading
  transcript : Transcript
  deriving DecidableEq, Repr

/-- How an instruction ends. -/
inductive Verdict where
  | done
  /-- It is a read that has to wait. -/
  | wait
  | halt (reason : HaltReason)
  deriving DecidableEq, Repr

namespace Frame

/-- Changes the stack only. -/
def onStack (f : Frame) (change : Stack → Stack) : Frame := { f with stack := change f.stack }

/-- A read that found nothing: an interactive run waits, and for a
staged run the policy decides. -/
def starve (f : Frame) (policy : ExhaustedInput) : Verdict × Frame :=
  if f.transcript.isInteractive then (.wait, f)
  else
    match policy with
    | .skip => (.done, f)
    | .pushZero => (.done, f.onStack (·.push 0))
    | .halt => (.halt .inputExhausted, f)

/-- A read: pushes the value if there is one. -/
def receive (f : Frame) (policy : ExhaustedInput) (read : Reading Int64 × Transcript) :
    Verdict × Frame :=
  let f := { f with transcript := read.2 }
  match read.1 with
  | .ready n => (.done, f.onStack (·.push n))
  | .malformed => (.done, f)
  | .exhausted => f.starve policy

end Frame

/-- Executes an instruction; `value` is the size of the block that is
left. Only reads can fail to be done at once. -/
def execute (policy : ExhaustedInput) (value : Nat) (f : Frame) :
    Instruction → Verdict × Frame
  | .nop => (.done, f)
  | .push => (.done, f.onStack (·.push (Int64.ofNat value)))
  | .pop => (.done, f.onStack fun s => s.pop.2)
  | .add => (.done, f.onStack (·.combine fun l r => some (l + r)))
  | .subtract => (.done, f.onStack (·.combine fun l r => some (l - r)))
  | .multiply => (.done, f.onStack (·.combine fun l r => some (l * r)))
  | .divide => (.done, f.onStack (·.combine Word.floorDiv?))
  | .mod => (.done, f.onStack (·.combine Word.floorMod?))
  | .not =>
    (.done, f.onStack fun s => s.pop.2.push (Word.ofBool (s.pop.1 = 0)))
  | .greater => (.done, f.onStack (·.combine fun l r => some (Word.ofBool (l > r))))
  | .pointer =>
    let (turns, stack) := f.stack.pop
    (.done, { f with stack, heading := { f.heading with dp := f.heading.dp.rotate turns } })
  | .switch =>
    let (times, stack) := f.stack.pop
    (.done, { f with stack, heading := { f.heading with cc := f.heading.cc.toggleTimes times } })
  | .duplicate => (.done, f.onStack (·.duplicate))
  | .roll =>
    (.done, f.onStack fun s =>
      let (count, s) := s.pop
      let (depth, s) := s.pop
      s.roll depth count)
  | .inNumber => f.receive policy f.transcript.readNumber
  | .inChar =>
    let (reading, transcript) := f.transcript.readChar
    f.receive policy (reading.map fun c => Int64.ofNat c.toNat, transcript)
  | .outNumber =>
    let (value, stack) := f.stack.pop
    (.done, { f with stack, transcript := f.transcript.print (toString value.toInt) })
  | .outChar =>
    let (value, stack) := f.stack.pop
    match Word.printable? value with
    | some c => (.done, { f with stack, transcript := f.transcript.print (String.singleton c) })
    | none => (.done, { f with stack })

/-! ### Machines -/

/-- A Piet program in execution. -/
structure Machine where
  program : Program
  policy : ExhaustedInput
  pointer : Pointer
  stack : Stack
  status : Status
  /-- The instruction executed by the last step that moved between two
  colored blocks; a slide clears it. -/
  lastInstruction : Option Instruction
  /-- How many steps were made. -/
  steps : Nat

namespace Machine

/-- The machine before its first step: at the top left codel, facing
right, the chooser to the left. If that codel has no block, there is
nothing to run. -/
def load (program : Program) (policy : ExhaustedInput) : Machine :=
  let start : Stance := ⟨.origin, ⟨.right, .left⟩⟩
  let machine (block : Nat) (status : Status) : Machine :=
    { program, policy, pointer := ⟨start, block⟩, stack := .empty, status
      lastInstruction := none, steps := 0 }
  match program.blockAt? .origin with
  | some block => machine block .running
  | none => machine 0 (.halted .blocked)

/-- Moves the pointer to a stance. It stays where it is if no block is
there. -/
def moveTo (m : Machine) (s : Stance) : Machine :=
  match m.program.blockAt? s.codel with
  | some block => { m with pointer := ⟨s, block⟩ }
  | none => m

/-- The machine after a slide. -/
def land (m : Machine) : Landing → Machine
  | .colored s => { m.moveTo s with status := .running, lastInstruction := none }
  | .trapped s => { m.moveTo s with status := .halted .blocked, lastInstruction := none }

/-- Executes an instruction while moving to `arrival`. -/
def perform (m : Machine) (t : Transcript) (instruction : Instruction) (value : Nat)
    (arrival : Pointer) : Machine × Transcript :=
  let (verdict, f) := execute m.policy value ⟨m.stack, arrival.heading, t⟩ instruction
  let m := { m with stack := f.stack }
  match verdict with
  | .done =>
    ({ m with
        pointer := { arrival with heading := f.heading }
        status := .running
        lastInstruction := some instruction },
      f.transcript)
  | .wait => ({ m with status := .awaitingInput }, f.transcript)
  | .halt reason => ({ m with status := .halted reason }, f.transcript)

/-- Makes one step. A halted machine stays as it is. -/
def step (m : Machine) (t : Transcript) : Machine × Transcript :=
  if m.status.isHalted then (m, t)
  else
    let m := { m with steps := m.steps + 1 }
    match m.program.move m.pointer with
    | .slide start => (m.land (slide m.program.grid start), t)
    | .perform instruction value arrival => m.perform t instruction value arrival
    | .blocked => ({ m with status := .halted .blocked }, t)

section Step

variable {m : Machine} {t : Transcript}

/-- A halted machine does not move. -/
theorem step_of_halted (h : m.status.isHalted) : m.step t = (m, t) := by
  simp only [step, if_pos h]

/-- A step onto white, or from it. -/
theorem step_of_slide {start : Stance} (h : ¬ m.status.isHalted)
    (hmove : m.program.move m.pointer = .slide start) :
    m.step t = (({ m with steps := m.steps + 1 }).land (Piet.slide m.program.grid start), t) := by
  simp only [step, if_neg h, hmove]

/-- A step between two colored blocks. -/
theorem step_of_perform {instruction : Instruction} {value : Nat} {arrival : Pointer}
    (h : ¬ m.status.isHalted)
    (hmove : m.program.move m.pointer = .perform instruction value arrival) :
    m.step t = ({ m with steps := m.steps + 1 }).perform t instruction value arrival := by
  simp only [step, if_neg h, hmove]

/-- A step that finds no way out. -/
theorem step_of_blocked (h : ¬ m.status.isHalted) (hmove : m.program.move m.pointer = .blocked) :
    m.step t = ({ m with steps := m.steps + 1, status := .halted .blocked }, t) := by
  simp only [step, if_neg h, hmove]

end Step

/-- Halts the machine, if it has not halted yet. -/
def stop (m : Machine) : Machine := { m with status := m.status.stop }

end Machine

end EsoHost.Piet
