import Steenrod.Text.Hidden
/-!
Quoted texts: a text between double quotes in which quotes, backslashes and characters without a
visible glyph are escaped.
-/
namespace Steenrod
namespace Text

def hexDigits (n : Nat) : List Char := Nat.toDigits 16 n

def escape (c : Char) : List Char :=
  if c = '"' then ['\\', '"']
  else if c = '\\' then ['\\', '\\']
  else if c = '\n' then ['\\', 'n']
  else if c = '\t' then ['\\', 't']
  else if c = '\r' then ['\\', 'r']
  else if c.toNat = 0 then ['\\', '0']
  else if isHidden c then ['\\', 'u', '\x7b'] ++ hexDigits c.toNat ++ ['\x7d']
  else [c]

def quote (s : String) : String :=
  String.ofList ('"' :: s.toList.flatMap escape ++ ['"'])

/-- A list of texts, quoted, between square brackets. -/
def quoteList (names : List String) : String :=
  "[" ++ ", ".intercalate (names.map quote) ++ "]"

theorem escape_plain {c : Char} (hq : c ≠ '"') (hb : c ≠ '\\') (h : isHidden c = false) :
    escape c = [c] := by
  have hc : ¬c.toNat < 0x20 := fun hc => by simp [isHidden_of_lt hc] at h
  have hn : c ≠ '\n' := by rintro rfl; exact hc (by decide)
  have ht : c ≠ '\t' := by rintro rfl; exact hc (by decide)
  have hr : c ≠ '\r' := by rintro rfl; exact hc (by decide)
  have h0 : c.toNat ≠ 0 := by omega
  simp [escape, hq, hb, hn, ht, hr, h0, h]

end Text
end Steenrod
