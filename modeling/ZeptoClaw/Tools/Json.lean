import Mathlib.Data.List.Basic

/-!
# JSON values, as the tools read them

A tool receives its arguments as a `serde_json::Value` and describes them with another one, its
`parameters()` schema. `Value` keeps the six shapes of `serde_json::Value`; an object is the list
of its entries, in which a parsed object has each key once. A number keeps only what a tool can
observe of it: whether `as_u64` reads it, and then the value. `get`, `asStr` and `asU64` are the
accessors `ShellTool::execute` calls.

The schema is not code that runs in this repository: a provider reads it to build the arguments.
`accepts` says what it promises, for the keywords the tools' schemas use (`type`, `properties`
with a `type` each, `required`), as a JSON Schema validator checks them.
-/

namespace ZeptoClaw

/-- A JSON number, by the three representations of `serde_json::Number`. -/
inductive Number
  /-- A non-negative integer that fits in `u64`. -/
  | posInt (n : UInt64)
  /-- A negative integer. -/
  | negInt
  /-- Any other number: a fraction, an exponent, or an integer past `u64`. -/
  | float
  deriving DecidableEq, Repr

/-- `serde_json::Value`. -/
inductive Value
  | null
  | bool (b : Bool)
  | number (n : Number)
  | string (s : String)
  | array (items : List Value)
  | object (entries : List (String × Value))
  deriving Repr

namespace Value

/-- `Value::get(key)`: the entry of an object under `key`; any other value has none. -/
def get (v : Value) (key : String) : Option Value :=
  match v with
  | object entries => entries.lookup key
  | _ => none

/-- `Value::as_str`. -/
def asStr : Value → Option String
  | string s => some s
  | _ => none

/-- `Value::as_u64`: only a non-negative integer that fits in 64 bits. -/
def asU64 : Value → Option UInt64
  | number (.posInt n) => some n
  | _ => none

@[simp] theorem get_object (entries : List (String × Value)) (key : String) :
    (object entries).get key = entries.lookup key := rfl

/-! ### What a schema promises -/

/-- The JSON Schema `type` keyword, for the type names a schema can give. -/
def hasType : String → Value → Bool
  | "null", null => true
  | "boolean", bool _ => true
  | "integer", number (.posInt _) => true
  | "integer", number .negInt => true
  | "number", number _ => true
  | "string", string _ => true
  | "array", array _ => true
  | "object", object _ => true
  | _, _ => false

/-- One entry of `properties`: when `args` has the property, it has the declared type. -/
def propertyHolds (args : Value) (property : String × Value) : Bool :=
  match args.get property.1, property.2.get "type" with
  | some v, some (string t) => hasType t v
  | _, _ => true

/-- One entry of `required`: `args` has the property it names. -/
def requiredHolds (args : Value) : Value → Bool
  | string name => (args.get name).isSome
  | _ => true

/-- **A schema accepts `args`**: its `type`, every one of its `properties` that `args` has, and
every name in `required`. -/
def accepts (schema args : Value) : Bool :=
  (match schema.get "type" with
    | some (string t) => hasType t args
    | _ => true) &&
  (match schema.get "properties" with
    | some (object properties) => properties.all (propertyHolds args)
    | _ => true) &&
  (match schema.get "required" with
    | some (array names) => names.all (requiredHolds args)
    | _ => true)

/-- A property `required` names is present in accepted arguments. -/
theorem accepts_required {schema args : Value} (h : schema.accepts args = true)
    {names : List Value} (hr : schema.get "required" = some (.array names)) {name : String}
    (hn : string name ∈ names) : (args.get name).isSome := by
  simp only [accepts, hr, Bool.and_eq_true, List.all_eq_true] at h
  simpa [requiredHolds] using h.2 _ hn

/-- A property present in accepted arguments has its declared type. -/
theorem accepts_property {schema args : Value} (h : schema.accepts args = true)
    {properties : List (String × Value)} (hp : schema.get "properties" = some (.object properties))
    {name : String} {property v : Value} (hmem : (name, property) ∈ properties)
    (hv : args.get name = some v) {t : String} (ht : property.get "type" = some (.string t)) :
    hasType t v := by
  simp only [accepts, hp, Bool.and_eq_true, List.all_eq_true] at h
  simpa [propertyHolds, hv, ht] using h.1.2 _ hmem

theorem hasType_string {v : Value} (h : hasType "string" v) : ∃ s, v = string s := by
  rcases v with _ | _ | _ | s | _ | _ <;>
    first | exact ⟨s, rfl⟩ | exact absurd h Bool.false_ne_true

end Value

end ZeptoClaw
