/-
  ServLang.Scalar — the fifteen built-in types of the language. Each has a keyword,
  by which a source names it, and a target spelling, by which generated code does.

  Proved: a keyword names the scalar it belongs to, and no other word names one.
-/

namespace ServLang

inductive Scalar where
  | double | float
  | int32 | int64 | uint32 | uint64 | sint32 | sint64
  | fixed32 | fixed64 | sfixed32 | sfixed64
  | bool | string | bytes
deriving DecidableEq, Repr

namespace Scalar

def all : List Scalar :=
  [double, float, int32, int64, uint32, uint64, sint32, sint64,
   fixed32, fixed64, sfixed32, sfixed64, bool, string, bytes]

def keyword : Scalar → String
  | double => "double"
  | float => "float"
  | int32 => "int32"
  | int64 => "int64"
  | uint32 => "uint32"
  | uint64 => "uint64"
  | sint32 => "sint32"
  | sint64 => "sint64"
  | fixed32 => "fixed32"
  | fixed64 => "fixed64"
  | sfixed32 => "sfixed32"
  | sfixed64 => "sfixed64"
  | bool => "bool"
  | string => "string"
  | bytes => "bytes"

/-- The spelling in generated code, where the wire encodings of one integer type
    (plain, zigzag, fixed) all become that type. -/
def target : Scalar → String
  | double => "float64"
  | float => "float32"
  | int32 | sint32 | sfixed32 => "int32"
  | int64 | sint64 | sfixed64 => "int64"
  | uint32 | fixed32 => "uint32"
  | uint64 | fixed64 => "uint64"
  | bool => "bool"
  | string => "string"
  | bytes => "[]byte"

def label : Scalar → String
  | double => "Double"
  | float => "Float"
  | int32 => "Int32"
  | int64 => "Int64"
  | uint32 => "Uint32"
  | uint64 => "Uint64"
  | sint32 => "Sint32"
  | sint64 => "Sint64"
  | fixed32 => "Fixed32"
  | fixed64 => "Fixed64"
  | sfixed32 => "SFixed32"
  | sfixed64 => "SFixed64"
  | bool => "Bool"
  | string => "String"
  | bytes => "Bytes"

def ofWord? (word : String) : Option Scalar := all.find? (·.keyword = word)

theorem mem_all (s : Scalar) : s ∈ all := by cases s <;> decide

theorem ofWord?_keyword (s : Scalar) : ofWord? s.keyword = some s := by cases s <;> decide

theorem keyword_of_ofWord? {word : String} {s : Scalar} (h : ofWord? word = some s) :
    s.keyword = word := by
  simpa using List.find?_some h

theorem ofWord?_eq_some_iff {word : String} {s : Scalar} :
    ofWord? word = some s ↔ s.keyword = word :=
  ⟨keyword_of_ofWord?, fun h => h ▸ ofWord?_keyword s⟩

end Scalar

end ServLang
