import AkKernel.Fs.Tree
import AkKernel.Kernel.Descriptors

/-!
# Opening paths

`sys_open` and `sys_newstat` on any path of a tree that the kernel built. A path without a
component makes `fs_locate` compare with `NULL`, and a node is opened or asked for its size
through a pointer that only some constructors set.
-/

set_option autoImplicit false

namespace AkKernel

open Bytes Runs

section Table
variable {p : Proc} {t : Task}

end Table

section Calls
variable {s : Files} {kids : NodePtr → List NodePtr} {path : CString}

section Located
variable {bound : Nat} {n : NodePtr}
  (hlocate : ∀ fuel, bound ≤ fuel → fsLocate fuel s.fs.node s.root path = .ok (some n))

include hlocate

end Located

end Calls

section Console

end Console

end AkKernel
