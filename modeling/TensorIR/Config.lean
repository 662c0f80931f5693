/-! # Configuration

What the pipeline does, and how it names temporaries. A configuration can be read from
environment variables, whose names all start with the name of the application:

* `TMP_PREFIX`: what names of temporaries start with, if it is not empty;
* `NO_INTRINSIC_LOWERING`, `NO_VAR_DECLS`: leave that stage out, whatever their value;
* `VERIFY`: a number up to 255; 0 leaves verification out. Any other text is ignored.
-/

namespace TensorIR

/-- Which stages run, and how temporaries are named. -/
structure Config where
  /-- What names of temporaries start with. -/
  tempStem : String := "tmp"
  /-- Lower calls of `norm` and `dot` before flattening. -/
  lowerIntrinsics : Bool := true
  /-- Declare local variables after flattening. -/
  insertDecls : Bool := true
  /-- Check that the flattened body is flat. -/
  verify : Bool := true
deriving DecidableEq

/-- The number from 0 to 255 that a text spells in decimal digits, with an optional plus sign
before them. -/
def byte? (s : String) : Option Nat :=
  let digits :=
    match s.toList with
    | '+' :: rest => rest
    | cs => cs
  if digits.isEmpty || !digits.all Char.isDigit then none
  else
    let n := digits.foldl (fun n c => 10 * n + (c.toNat - '0'.toNat)) 0
    if n ≤ 255 then some n else none

/-- The configuration that environment variables ask for. -/
def Config.ofEnvironment (application : String) (lookup : String → Option String) : Config :=
  let var (name : String) := lookup (application ++ "_" ++ name)
  { tempStem := ((var "TMP_PREFIX").filter fun s => !s.isEmpty).getD "tmp"
    lowerIntrinsics := (var "NO_INTRINSIC_LOWERING").isNone
    insertDecls := (var "NO_VAR_DECLS").isNone
    verify := (((var "VERIFY").bind byte?).map (· != 0)).getD true }

end TensorIR
