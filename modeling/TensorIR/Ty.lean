/-! # Types

Every expression carries a type. There are five shapes of them: scalars, tensors over an
ordered list of dimensions, and three that describe graph-structured data: the records a set
is made of, the set itself, and tuples of records.

**Key idea**: almost every rule of the language asks only whether a type is *scalar*. A
tensor of order 0 has a single component and counts as scalar although it is a tensor, so
`Ty.isScalar` and `Ty.isTensor` overlap there.

Equality of types is structural. Two different types may share a text: the dimension `3` and
the dimension named `"3"`, or the scalar `int` and a record of that name.
-/

namespace TensorIR

/-! ### Scalars and dimensions -/

/-- The kinds of value a tensor component can have. -/
inductive ScalarType where
  | int
  | float
  | bool
deriving DecidableEq, Ord

namespace ScalarType

/-- Every scalar kind, in increasing order. -/
def all : List ScalarType := [.int, .float, .bool]

/-- The name of the scalar kind. -/
def text : ScalarType → String
  | .int => "int"
  | .float => "float"
  | .bool => "bool"

/-- The number of bytes one component takes. -/
def bytes : ScalarType → Nat
  | .int => 4
  | .float => 8
  | .bool => 1

/-- Integers and floats can be computed with; truth values cannot. -/
def isNumeric : ScalarType → Bool
  | .int | .float => true
  | .bool => false

end ScalarType

/-- One dimension of a tensor. -/
inductive Dim where
  /-- The indices `0, …, size - 1`. -/
  | range (size : Nat)
  /-- One index for each member of the named set. -/
  | set (name : String)
  /-- An extent that is known only when the program runs. -/
  | dynamic
deriving DecidableEq

namespace Dim

/-- The text of a dimension; a dynamic one is written `*`. -/
def text : Dim → String
  | .range n => toString n
  | .set name => name
  | .dynamic => "*"

/-- The number of indices, where the dimension fixes it. -/
def size? : Dim → Option Nat
  | .range n => some n
  | .set _ | .dynamic => none

end Dim

/-- A tensor type: what the components are, and one dimension for each index. -/
structure TensorType where
  /-- The kind of the components. -/
  component : ScalarType
  /-- The dimensions, outermost first. -/
  dims : List Dim
  /-- Tells a column vector from a row vector. -/
  column : Bool := false
deriving DecidableEq

namespace TensorType

/-- The number of dimensions. -/
def order (t : TensorType) : Nat := t.dims.length

/-- `tensor[3,V](float)`, with a closing quote for a column; order 0 is `tensor(float)`, and
whether it is a column is not shown. -/
def text (t : TensorType) : String :=
  if t.dims.isEmpty then "tensor(" ++ t.component.text ++ ")"
  else
    "tensor[" ++ ",".intercalate (t.dims.map Dim.text) ++ "](" ++ t.component.text ++ ")"
      ++ (if t.column then "'" else "")

end TensorType

/-! ### The types of the language -/

mutual

/-- The type of a value. -/
inductive Ty where
  | scalar (s : ScalarType)
  | tensor (t : TensorType)
  /-- A record. -/
  | element (e : ElementType)
  /-- A set of records. -/
  | set (e : ElementType)
  /-- A fixed number of records. -/
  | tuple (e : ElementType) (size : Nat)

/-- A record type. Field names may repeat; the first field of a name is the one that counts. -/
structure ElementType where
  name : String
  /-- The fields in order. -/
  fields : List (String × Ty)

end

/-- The type of the first field of the given name. -/
def ElementType.field? (e : ElementType) (name : String) : Option Ty :=
  (e.fields.find? fun f => f.1 == name).map Prod.snd

namespace Ty

abbrev int : Ty := .scalar .int
abbrev float : Ty := .scalar .float
abbrev bool : Ty := .scalar .bool

/-- The tensor type over the given dimensions. -/
def ofDims (component : ScalarType) (dims : List Dim) : Ty :=
  .tensor ⟨component, dims, false⟩

/-- Float vectors of a fixed length. -/
def vector (n : Nat) : Ty := ofDims .float [.range n]

/-- Float matrices of a fixed size. -/
def matrix (rows cols : Nat) : Ty := ofDims .float [.range rows, .range cols]

/-! ### Questions about a type -/

/-- Scalars and tensors of order 0. -/
def isScalar : Ty → Bool
  | .scalar _ => true
  | .tensor t => t.dims.isEmpty
  | _ => false

/-- Tensors of any order, 0 included. -/
def isTensor : Ty → Bool
  | .tensor _ => true
  | _ => false

def isElement : Ty → Bool
  | .element _ => true
  | _ => false

def isSet : Ty → Bool
  | .set _ => true
  | _ => false

def isTuple : Ty → Bool
  | .tuple _ _ => true
  | _ => false

/-- Tensors of order at least one: a value with more than a single component. -/
def isWhole (ty : Ty) : Bool := ty.isTensor && !ty.isScalar

/-- The tensor type, of a tensor. -/
def tensor? : Ty → Option TensorType
  | .tensor t => some t
  | _ => none

/-- The kind of the components of a scalar or a tensor. -/
def component? : Ty → Option ScalarType
  | .scalar s => some s
  | .tensor t => some t.component
  | _ => none

/-- The dimensions of a tensor; every other type has none. -/
def dims : Ty → List Dim
  | .tensor t => t.dims
  | _ => []

/-- The number of dimensions, 0 for all that is not a tensor. -/
def order (ty : Ty) : Nat := ty.dims.length

/-- The type of one component of a scalar or a tensor; every other type is its own. -/
def componentTy (ty : Ty) : Ty :=
  match ty.component? with
  | some s => .scalar s
  | none => ty

/-- The text of a type. A record is written by its name alone. -/
def text : Ty → String
  | .scalar s => s.text
  | .tensor t => t.text
  | .element e => e.name
  | .set e => "set\x7b" ++ e.name ++ "\x7d"
  | .tuple e n => "(" ++ e.name ++ "*" ++ toString n ++ ")"

end Ty

/-! ### Equality is decidable

The comparison goes through the nested record types. `Ty.same_iff` shows that it decides
equality. -/

mutual

/-- Structural comparison of types. -/
def Ty.same : Ty → Ty → Bool
  | .scalar s, .scalar s' => s == s'
  | .tensor t, .tensor t' => t == t'
  | .element e, .element e' => e.same e'
  | .set e, .set e' => e.same e'
  | .tuple e n, .tuple e' n' => e.same e' && n == n'
  | _, _ => false

/-- Structural comparison of record types. -/
def ElementType.same : ElementType → ElementType → Bool
  | ⟨name, fields⟩, ⟨name', fields'⟩ => name == name' && ElementType.sameFields fields fields'

/-- Field by field comparison. -/
def ElementType.sameFields : List (String × Ty) → List (String × Ty) → Bool
  | [], [] => true
  | (name, ty) :: rest, (name', ty') :: rest' =>
    name == name' && ty.same ty' && ElementType.sameFields rest rest'
  | _, _ => false

end

mutual

theorem Ty.same_iff : ∀ a b : Ty, a.same b = true ↔ a = b
  | .scalar s, b => by cases b <;> simp [Ty.same]
  | .tensor t, b => by cases b <;> simp [Ty.same]
  | .element e, b => by cases b <;> simp [Ty.same, e.same_iff]
  | .set e, b => by cases b <;> simp [Ty.same, e.same_iff]
  | .tuple e n, b => by cases b <;> simp [Ty.same, e.same_iff]

theorem ElementType.same_iff : ∀ a b : ElementType, a.same b = true ↔ a = b
  | ⟨name, fields⟩, ⟨name', fields'⟩ => by
    simp [ElementType.same, ElementType.sameFields_iff fields fields']

theorem ElementType.sameFields_iff :
    ∀ a b : List (String × Ty), ElementType.sameFields a b = true ↔ a = b
  | [], b => by cases b <;> simp [ElementType.sameFields]
  | (name, ty) :: rest, b => by
    rcases b with _ | ⟨⟨name', ty'⟩, rest'⟩
    · simp [ElementType.sameFields]
    · simp [ElementType.sameFields, ty.same_iff ty', ElementType.sameFields_iff rest rest']

end

instance : DecidableEq Ty := fun a b => decidable_of_iff _ (Ty.same_iff a b)

instance : DecidableEq ElementType := fun a b => decidable_of_iff _ (ElementType.same_iff a b)

/-! ### Small facts -/

namespace Ty

/-- Order 0 and scalar agree on tensors. -/
theorem isScalar_tensor (t : TensorType) : (Ty.tensor t).isScalar = (t.order == 0) := by
  cases h : t.dims <;> simp [isScalar, TensorType.order, h]

/-- One component of a tensor is a scalar. -/
theorem isScalar_componentTy_of_isTensor {ty : Ty} (h : ty.isTensor = true) :
    ty.componentTy.isScalar = true := by
  cases ty <;> simp_all [isTensor, componentTy, component?, isScalar]

/-- One component of a scalar is a scalar. -/
theorem isScalar_componentTy {ty : Ty} (h : ty.isScalar = true) :
    ty.componentTy.isScalar = true := by
  cases ty <;> simp_all [isScalar, componentTy, component?]

end Ty

end TensorIR
