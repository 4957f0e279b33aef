import Apg.Spec.Root

/-!
# Looking for missing files

`db/verify.c`: every listed path of every recorded package is looked up under the root.
-/

namespace Apg

open Posix

namespace Root

end Root

end Apg
