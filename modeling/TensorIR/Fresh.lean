import TensorIR.Var

/-! # Fresh identities and names

Passes make variables of their own. What they need for it is kept in three counters:

* **identities**, given to variables, index variables and functions, in the order of creation;
* **temporary names**: a stem followed by the number of names drawn before, `tmp0`, `tmp1`, …;
* **index names**: the letters `i` to `n` in turn, from the second round on with the number of
  the round behind: `i`, …, `n`, `i1`, `j1`, ….

Objects that share their temporary names are given the same counter, one after another.
-/

namespace TensorIR

/-- A generator of temporary names. -/
structure TempNames where
  /-- What every name starts with. -/
  stem : String := "tmp"
  /-- The number of names drawn so far. -/
  issued : Nat := 0

namespace TempNames

/-- The name that is drawn after `k` others. -/
def name (stem : String) (k : Nat) : String := stem ++ toString k

/-- Draws a name. -/
def draw (t : TempNames) : String × TempNames :=
  (name t.stem t.issued, { t with issued := t.issued + 1 })

end TempNames

/-- A generator of index names. -/
structure IndexNames where
  /-- The number of names drawn so far. -/
  issued : Nat := 0

namespace IndexNames

/-- The letters that index names are made of. -/
def letters : List String := ["i", "j", "k", "l", "m", "n"]

/-- The name that is drawn after `k` others. -/
def name (k : Nat) : String :=
  let letter := letters.getD (k % letters.length) ""
  let round := k / letters.length
  if round = 0 then letter else letter ++ toString round

/-- Draws a name. -/
def draw (n : IndexNames) : String × IndexNames := (name n.issued, ⟨n.issued + 1⟩)

/-- Makes an index variable of the given identity. -/
def indexVar (n : IndexNames) (id : Nat) (domain : Dim) (reduction : Option Reduction) :
    IndexVar × IndexNames :=
  let (name, n) := n.draw
  (⟨id, name, domain, reduction⟩, n)

end IndexNames

/-- The identities and temporary names in supply. -/
structure Fresh where
  /-- The next identity. All smaller ones are taken. -/
  nextId : Nat
  names : TempNames

namespace Fresh

/-- Draws an identity. -/
def newId : StateM Fresh Nat := modifyGet fun s => (s.nextId, { s with nextId := s.nextId + 1 })

/-- Makes a variable of the given type with a temporary name. -/
def temporary (ty : Ty) : StateM Fresh Var := modifyGet fun s =>
  let (name, names) := s.names.draw
  (⟨s.nextId, name, ty⟩, ⟨s.nextId + 1, names⟩)

end Fresh

end TensorIR
