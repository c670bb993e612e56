import Xv6.Vm.GiveBack
import Xv6.Vm.Owners

/-!
# `exec` on any file

How `exec` ends on a file can be told from the answers of `readi` and the pages that are granted.
Where it gets to nothing that is wrong, it comes to its end and writes to pages only that it has
been given; where it gets to something fatal, it does not.
-/

namespace Xv6

open Foundation

/-- `exec` returns, has not used a header that it could not read, and has written to no page
but those that `kalloc` has given it. -/
def ExecIsSafe (file : Option Reader) (stack path : List UInt8) (argv : List (List UInt8))
    (old : Pgdir) (s : Vm) : Prop :=
  ∃ r t, VmM.exec file stack path argv old s = .ok (r, t) ∧ t.unread = false ∧ t.stray = []

section Safe

variable {file : Option Reader} {stack path : List UInt8} {argv : List (List UInt8)}
  {old : Pgdir} {s : Vm}

end Safe

def unreadable : Reader := fun _ _ _ => none

end Xv6
