import LoxMachine.Listing
import LoxMachine.Machine.Instructions

/-!
# Execution

* `Run.execute` performs one instruction; the answer is whether the outermost call has ended.
* `Machine.step` is one step of the machine and `Machine.run` a number of steps.
-/

namespace LoxMachine

namespace Run

/-- Perform an operation whose opcode byte has been read. -/
def perform : Opcode → Run Bool
  | .constant => do push (← readConstant); return false
  | .pushNil => do push .nil; return false
  | .pushTrue => do push (.bool true); return false
  | .pushFalse => do push (.bool false); return false
  | .pop => do let _ ← pop; return false
  | .getLocal => do getLocal; return false
  | .setLocal => do setLocal; return false
  | .getGlobal => do getGlobal; return false
  | .defineGlobal => do defineGlobal; return false
  | .setGlobal => do setGlobal; return false
  | .getUpvalue => do getUpvalue; return false
  | .setUpvalue => do setUpvalue; return false
  | .getProperty => do getProperty; return false
  | .setProperty => do setProperty; return false
  | .getSuper => do getSuper; return false
  | .equal => do equal; return false
  | .greater => do compare (fun a b => b.lt a); return false
  | .less => do compare (fun a b => a.lt b); return false
  | .add => do add; return false
  | .subtract => do arithmetic Number.sub; return false
  | .multiply => do arithmetic Number.mul; return false
  | .divide => do arithmetic Number.div; return false
  | .not => do not; return false
  | .negate => do negate; return false
  | .print => do print; return false
  | .jump => do jump; return false
  | .jumpIfFalse => do jumpIfFalse; return false
  | .loop => do jumpBack; return false
  | .call => do callInstruction; return false
  | .invoke => do invoke; return false
  | .superInvoke => do superInvoke; return false
  | .closure => do makeClosure; return false
  | .closeUpvalue => do closeTop; return false
  | .ret => ret
  | .cls => do makeClass; return false
  | .inherit => do inherit; return false
  | .method => do method; return false

/-- Report the stack and the next instruction. -/
def report : Run Unit := do
  let f ← frame
  let stack := (← get).stack
  let texts ← look fun heap => stack.toList.mapM heap.display
  let chunk ← runningChunk f
  let (text, _) ← look (Listing.instruction · chunk f.ip)
  modify fun m => { m with heap := (m.heap.record (.operands texts)).record (.executes text) }

/-- Perform the next instruction. -/
def execute : Run Bool := do
  if (← get).heap.journal.admits .trace then report
  perform (← readOpcode)

end Run

namespace Machine

/-- One step: the answer is whether the outermost call has ended. -/
def step (m : Machine) : EStateM.Result Failure Machine Bool := Run.execute m

/-- How far an execution has come. -/
inductive Outcome where
  /-- The outermost call has ended. -/
  | finished (m : Machine)
  | failed (why : Failure) (m : Machine)
  /-- The number of steps was not enough. -/
  | running (m : Machine)

namespace Outcome

def machine : Outcome → Machine
  | finished m | failed _ m | running m => m

end Outcome

/-- Up to `fuel` steps. -/
def run : (fuel : Nat) → Machine → Outcome
  | 0, m => .running m
  | fuel + 1, m =>
    match m.step with
    | .ok true m => .finished m
    | .ok false m => m.run fuel
    | .error why m => .failed why m

end Machine

end LoxMachine
