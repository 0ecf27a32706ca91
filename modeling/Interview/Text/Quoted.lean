import Interview.Text.Invisible

/-!
# Quoted names

A name is shown between double quotes. A quote or a backslash in it gets a backslash before it; a
null, a tab, a line feed and a carriage return have short forms; what cannot be seen on its own is
written by its number; all else stands for itself.

* `Quoted.encode`: a name as shown.
-/

namespace Interview

namespace Quoted

/-- The digits of a number to the base sixteen, in lower case. -/
def hex (n : Nat) : List Char := Nat.toDigits 16 n

/-- The letter that stands after a backslash for some characters. -/
def letter? : Char → Option Char
  | '\x00' => some '0'
  | '\t' => some 't'
  | '\n' => some 'n'
  | '\r' => some 'r'
  | '"' => some '"'
  | '\\' => some '\\'
  | _ => none

/-- A character of a name, as shown. -/
def encodeChar (c : Char) : List Char :=
  match letter? c with
  | some d => ['\\', d]
  | none =>
    if Invisible.contains c then ['\\', 'u', '\x7b'] ++ hex c.toNat ++ ['\x7d'] else [c]

/-- A name as shown. -/
def encode (name : String) : String :=
  String.ofList (['"'] ++ name.toList.flatMap encodeChar ++ ['"'])

example : encode "a\"\n\x7f" = "\"a\\\"\\n\\u\x7b7f\x7d\"" := by
  decide +kernel

end Quoted

end Interview
