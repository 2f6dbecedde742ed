/-
RpcLoom/Text/Escape.lean

Identifier-safe spelling of arbitrary text.

Design.  ASCII letters and digits stand for themselves; every other character
is written as its code point in hexadecimal between two underscores.  So an
escaped text holds letters, digits and underscores only, and its underscores
come in pairs with a non-empty run of hexadecimal digits inside each pair.
-/
namespace RpcLoom.Text

/-- The spelling of one character: itself if it is an ASCII letter or digit,
otherwise its code point in lower-case hexadecimal between underscores. -/
def escapeChar (c : Char) : List Char :=
  if c.isAlphanum then [c] else '_' :: Nat.toDigits 16 c.toNat ++ ['_']

/-- The spelling of a list of characters, character by character. -/
def escapeChars (cs : List Char) : List Char :=
  cs.flatMap escapeChar

/-- The identifier-safe spelling of a text. -/
def escape (s : String) : String :=
  String.ofList (escapeChars s.toList)

/-! ### The spelling as a list of characters -/

@[simp] theorem toList_escape (s : String) : (escape s).toList = escapeChars s.toList := by
  simp [escape]

@[simp] theorem escapeChars_nil : escapeChars [] = [] := rfl

@[simp] theorem escapeChars_cons (c : Char) (cs : List Char) :
    escapeChars (c :: cs) = escapeChar c ++ escapeChars cs := by
  simp [escapeChars]

end RpcLoom.Text
