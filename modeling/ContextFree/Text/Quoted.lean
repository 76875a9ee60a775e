import ContextFree.Text.Printable

/-!
# Quoted text

A text in double quotes, on one line and free of invisible characters: a quote or a backslash
is preceded by a backslash, printable characters stand for themselves, and every other
character is written by its letter escape if it has one, otherwise by its code in hexadecimal
digits.
-/

namespace ContextFree.Text

/-- The code of a character in lower-case hexadecimal digits, filled with zeros to a width. -/
def hexCode (width : Nat) (c : Char) : List Char :=
  let digits := Nat.toDigits 16 c.toNat
  List.replicate (width - digits.length) '0' ++ digits

/-- The letter that escapes a control character, if there is one. -/
def escapeLetter? (c : Char) : Option Char :=
  match c.toNat with
  | 0x07 => some 'a'
  | 0x08 => some 'b'
  | 0x09 => some 't'
  | 0x0a => some 'n'
  | 0x0b => some 'v'
  | 0x0c => some 'f'
  | 0x0d => some 'r'
  | _ => none

/-- How a character is written inside quotes. -/
def quotedChar (c : Char) : List Char :=
  if c = '"' ∨ c = '\\' then ['\\', c]
  else if isPrintable c then [c]
  else
    match escapeLetter? c with
    | some letter => ['\\', letter]
    | none =>
      if c.toNat < 0x80 then '\\' :: 'x' :: hexCode 2 c
      else if c.toNat < 0x10000 then '\\' :: 'u' :: hexCode 4 c
      else '\\' :: 'U' :: hexCode 8 c

/-- A text in double quotes. -/
def quote (text : String) : String :=
  String.ofList ('"' :: text.toList.flatMap quotedChar ++ ['"'])

end ContextFree.Text
