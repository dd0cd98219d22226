/-
# AffineRaising.IR.Attribute — types, attributes and attribute dictionaries.

A type is a qualified name with type parameters and attributes; an attribute is a literal, a type, a
symbol, an affine map or set, or a list of attributes.  Dictionaries are kept ascending in their
keys, so two dictionaries with the same entries are equal; a later entry replaces an earlier one.
-/
import AffineRaising.Affine.ConstraintSet
import AffineRaising.Decimal.Shortest
import AffineRaising.Text.Quoted

namespace AffineRaising.IR

open AffineRaising.Affine (Map ConstraintSet commaSeparated)

mutual

/-- A type `dialect.name(params) {attrs}`. -/
inductive Ty where
  | mk (dialect name : String) (params : List Ty) (attrs : List (String × Attr))

/-- The value of an attribute. -/
inductive Attr where
  | unit
  | bool (value : Bool)
  | int (value : Int64)
  /-- A float, by its bit pattern. -/
  | float (bits : Decimal.Bits)
  | string (text : String)
  | type (ty : Ty)
  | symbol (name : String)
  | list (items : List Attr)
  | map (map : Map)
  | constraints (set : ConstraintSet)

end

/-! ## Equality -/

mutual

/-- Tests types for equality. -/
def Ty.same : Ty → Ty → Bool
  | .mk d n ps as, .mk d' n' ps' as' => d == d' && n == n' && sameTys ps ps' && sameEntries as as'
termination_by structural a => a

/-- Tests attributes for equality. -/
def Attr.same : Attr → Attr → Bool
  | .unit, .unit => true
  | .bool a, .bool b => a == b
  | .int a, .int b => a == b
  | .float a, .float b => a == b
  | .string a, .string b => a == b
  | .type a, .type b => a.same b
  | .symbol a, .symbol b => a == b
  | .list a, .list b => sameAttrs a b
  | .map a, .map b => a == b
  | .constraints a, .constraints b => a == b
  | _, _ => false
termination_by structural a => a

/-- Tests lists of types for equality. -/
def sameTys : List Ty → List Ty → Bool
  | [], [] => true
  | a :: as, b :: bs => a.same b && sameTys as bs
  | _, _ => false
termination_by structural a => a

/-- Tests lists of attributes for equality. -/
def sameAttrs : List Attr → List Attr → Bool
  | [], [] => true
  | a :: as, b :: bs => a.same b && sameAttrs as bs
  | _, _ => false
termination_by structural a => a

/-- Tests lists of entries for equality. -/
def sameEntries : List (String × Attr) → List (String × Attr) → Bool
  | [], [] => true
  | (k, a) :: as, (l, b) :: bs => k == l && a.same b && sameEntries as bs
  | _, _ => false
termination_by structural a => a

end

mutual

/-- The comparison of types decides equality. -/
theorem Ty.same_iff : (a b : Ty) → (a.same b = true ↔ a = b)
  | .mk _ _ ps as, .mk _ _ ps' as' => by
    simp [Ty.same, sameTys_iff ps ps', sameEntries_iff as as', and_assoc]
termination_by structural a => a

/-- The comparison of attributes decides equality. -/
theorem Attr.same_iff : (a b : Attr) → (a.same b = true ↔ a = b)
  | .unit, b => by cases b <;> simp [Attr.same]
  | .bool _, b => by cases b <;> simp [Attr.same]
  | .int _, b => by cases b <;> simp [Attr.same]
  | .float _, b => by cases b <;> simp [Attr.same]
  | .string _, b => by cases b <;> simp [Attr.same]
  | .type t, b => by cases b <;> simp [Attr.same, Ty.same_iff t]
  | .symbol _, b => by cases b <;> simp [Attr.same]
  | .list items, b => by cases b <;> simp [Attr.same, sameAttrs_iff items]
  | .map _, b => by cases b <;> simp [Attr.same]
  | .constraints _, b => by cases b <;> simp [Attr.same]
termination_by structural a => a

/-- The comparison of lists of types decides equality. -/
theorem sameTys_iff : (a b : List Ty) → (sameTys a b = true ↔ a = b)
  | [], b => by cases b <;> simp [sameTys]
  | a :: as, b => by cases b <;> simp [sameTys, Ty.same_iff a, sameTys_iff as]
termination_by structural a => a

/-- The comparison of lists of attributes decides equality. -/
theorem sameAttrs_iff : (a b : List Attr) → (sameAttrs a b = true ↔ a = b)
  | [], b => by cases b <;> simp [sameAttrs]
  | a :: as, b => by cases b <;> simp [sameAttrs, Attr.same_iff a, sameAttrs_iff as]
termination_by structural a => a

/-- The comparison of lists of entries decides equality. -/
theorem sameEntries_iff : (a b : List (String × Attr)) → (sameEntries a b = true ↔ a = b)
  | [], b => by cases b <;> simp [sameEntries]
  | (k, a) :: as, b => by
    cases b with
    | nil => simp [sameEntries]
    | cons e es =>
      obtain ⟨l, b⟩ := e
      simp [sameEntries, Attr.same_iff a, sameEntries_iff as]
termination_by structural a => a

end

instance : DecidableEq Ty := fun a b => decidable_of_iff _ (Ty.same_iff a b)

instance : DecidableEq Attr := fun a b => decidable_of_iff _ (Attr.same_iff a b)

instance : Inhabited Attr := ⟨.unit⟩

/-! ## Dictionaries -/

/-- Attributes by key, ascending in the keys. -/
abbrev Dict := List (String × Attr)

namespace Dict

/-- Sets the attribute of a key. -/
def insert (key : String) (value : Attr) : Dict → Dict
  | [] => [(key, value)]
  | (k, v) :: rest =>
    if key = k then (key, value) :: rest
    else if key < k then (key, value) :: (k, v) :: rest
    else (k, v) :: insert key value rest

/-- The attribute of a key. -/
def get? (key : String) : Dict → Option Attr
  | [] => none
  | (k, v) :: rest => if key = k then some v else get? key rest

/-- The dictionary of some entries, later ones replacing earlier ones. -/
def ofEntries (entries : List (String × Attr)) : Dict :=
  entries.foldl (fun dict e => insert e.1 e.2 dict) []

/-- The keys in order. -/
def keys (dict : Dict) : List String :=
  dict.map (·.1)

end Dict

namespace Attr

/-- The number of an integer attribute. -/
def int? : Attr → Option Int64
  | .int v => some v
  | _ => none

/-- The map of a map attribute. -/
def map? : Attr → Option Map
  | .map m => some m
  | _ => none

/-- The constraints of a set attribute. -/
def constraints? : Attr → Option ConstraintSet
  | .constraints s => some s
  | _ => none

/-- The name of a symbol attribute. -/
def symbol? : Attr → Option String
  | .symbol s => some s
  | _ => none

/-- The type of a type attribute. -/
def type? : Attr → Option Ty
  | .type t => some t
  | _ => none

end Attr

/-! ## Types -/

namespace Ty

/-- The dialect of a type. -/
def dialect : Ty → String
  | .mk d _ _ _ => d

/-- The name of a type inside its dialect. -/
def name : Ty → String
  | .mk _ n _ _ => n

/-- The type parameters. -/
def params : Ty → List Ty
  | .mk _ _ ps _ => ps

/-- The attributes of a type. -/
def attrs : Ty → Dict
  | .mk _ _ _ as => as

/-- A type without parameters of the `core` dialect. -/
def core (name : String) : Ty := .mk "core" name [] []

/-- The type of subscripts and loop bounds. -/
def index : Ty := core "index"

/-- The type of truth values. -/
def i1 : Ty := core "i1"

/-- The type of functions that return nothing. -/
def nil : Ty := core "nil"

/-- The type of vectors of an element type. -/
def vector (element : Ty) : Ty := .mk "core" "vector" [element] []

/-- The type of memory holding an element type. -/
def memory (element : Ty) : Ty := .mk "mem" "ref" [element] []

/-- The type of functions: the result first, then the parameters. -/
def function (result : Ty) (params : List Ty) : Ty := .mk "core" "func" (result :: params) []

/-- Whether a type is the index type. -/
def isIndex (t : Ty) : Bool :=
  t.dialect == "core" && t.name == "index"

/-- A decimal number below `2^32`, possibly after a plus sign. -/
def readWidth? (cs : List Char) : Option Nat :=
  let digits := if cs.head? = some '+' then cs.tail else cs
  if digits.isEmpty || !digits.all Char.isDigit then none
  else
    let n := digits.foldl (fun n c => 10 * n + (c.toNat - '0'.toNat)) 0
    if n < Nat.pow 2 32 then some n else none

/-- The width of a type `core.iN`. -/
def intWidth? (t : Ty) : Option Nat :=
  if t.dialect = "core" then
    match t.name.toList with
    | 'i' :: digits => readWidth? digits
    | _ => none
  else none

/-- Integer types: the index type and the types of a width. -/
def isIntegerLike (t : Ty) : Bool :=
  t.isIndex || t.intWidth?.isSome

/-- One of each of the common types, and the function type over all of them. -/
def samples : List Ty :=
  let basic := [index, i1, core "i32", core "i64", core "f32", core "f64", nil,
    vector (core "f32"), memory (core "f32")]
  basic ++ [function index basic]

end Ty

/-! ## Text -/

/-- Characters of names that need no quotes. -/
def isNameChar (c : Char) : Bool :=
  c.isAlphanum || c == '_'

/-- The text of a symbol: an at sign and the name, quoted unless it is a plain word. -/
def renderSymbol (name : String) : String :=
  if name.isEmpty || !name.toList.all isNameChar then "@" ++ Text.quote name else "@" ++ name

/-- Entries in braces, with the opening brace after a blank. -/
def renderBraces (entries : List String) : String :=
  if entries.isEmpty then "" else " \x7b" ++ commaSeparated entries ++ "\x7d"

mutual

/-- The text of a type.  Attributes follow parentheses, which stand empty if there is no
parameter. -/
def Ty.render : Ty → String
  | .mk d n ps as =>
    d ++ "." ++ n ++
      (if ps.isEmpty && as.isEmpty then "" else "(" ++ commaSeparated (renderTys ps) ++ ")") ++
      renderBraces (renderEntries as)
termination_by structural t => t

/-- The text of an attribute. -/
def Attr.render : Attr → String
  | .unit => "unit"
  | .bool b => if b then "true" else "false"
  | .int v => Affine.decimal v
  | .float bits => Decimal.render bits
  | .string s => Text.quote s
  | .type t => t.render
  | .symbol s => renderSymbol s
  | .list items => "[" ++ commaSeparated (renderAttrs items) ++ "]"
  | .map m => m.render
  | .constraints s => s.render

/-- The texts of types. -/
def renderTys : List Ty → List String
  | [] => []
  | t :: ts => t.render :: renderTys ts

/-- The texts of attributes. -/
def renderAttrs : List Attr → List String
  | [] => []
  | a :: as => a.render :: renderAttrs as

/-- The texts of dictionary entries. -/
def renderEntries : List (String × Attr) → List String
  | [] => []
  | (k, v) :: rest => (k ++ " = " ++ v.render) :: renderEntries rest

end

/-- The text of a dictionary: nothing if it is empty, else its entries in braces after a blank. -/
def Dict.render (dict : Dict) : String :=
  renderBraces (renderEntries dict)

end AffineRaising.IR
