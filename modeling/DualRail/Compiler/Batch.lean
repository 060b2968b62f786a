import DualRail.Compiler.Compile

/-!
Compilation of several programs. The programs are independent; the batch gives all processors in
input order, or the failure of the first program that does not compile. A batch that is cancelled
before it starts compiles nothing.
-/

namespace DualRail

variable {α R : Type} [Element α] [Quantity R]

def compileFrom (s : Settings α R) :
    Nat → List (Option (Program R)) → Except Failure (List (Processor α R))
  | _, [] => .ok []
  | i, p :: rest => do
    let first ← noting (.program i) (compile s p)
    return first :: (← compileFrom s (i + 1) rest)

def compileAll (s : Settings α R) (cancelled : Bool) (programs : List (Option (Program R))) :
    Except Failure (List (Processor α R)) :=
  if cancelled && !programs.isEmpty then refuse .cancelled []
  else compileFrom s 0 programs

end DualRail
