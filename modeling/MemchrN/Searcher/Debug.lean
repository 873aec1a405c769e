import MemchrN.Bitset.Debug
import MemchrN.Searcher.Iter
import MemchrN.Searcher.Kinds

namespace MemchrN

section Definitions

def ascii (s : String) : Text := s.toList.map fun c => BitVec.ofNat 8 c.toNat

abbrev colon : U8 := 0x3A#8
abbrev openParen : U8 := 0x28#8
abbrev closeParen : U8 := 0x29#8

/-- An unsigned number in decimal. -/
def decimal (n : ℕ) : Text := (Nat.toDigits 10 n).map fun c => BitVec.ofNat 8 c.toNat

/-- The builder of `Formatter::debug_struct`. -/
structure DebugStruct where
  alternate : Bool
  text : Text
  hasFields : Bool

namespace DebugStruct

def new (alternate : Bool) (name : Text) : DebugStruct where
  alternate := alternate
  text := name
  hasFields := false

def field (fields : DebugStruct) (name value : Text) : DebugStruct :=
  let text :=
    if fields.alternate then
      fields.text ++ (if fields.hasFields then [] else [space, openBrace, newline]) ++
        padAdapter true (name ++ [colon, space] ++ value ++ [comma, newline])
    else
      fields.text ++ (if fields.hasFields then [comma, space] else [space, openBrace, space]) ++
        name ++ [colon, space] ++ value
  { fields with text := text, hasFields := true }

def finish (fields : DebugStruct) : Text :=
  if fields.hasFields then
    if fields.alternate then fields.text ++ [closeBrace] else fields.text ++ [space, closeBrace]
  else fields.text

def finishNonExhaustive (fields : DebugStruct) : Text :=
  if fields.hasFields then
    if fields.alternate then fields.text ++ padAdapter true (ascii ".." ++ [newline]) ++ [closeBrace]
    else fields.text ++ ascii ", .. " ++ [closeBrace]
  else fields.text ++ [space, openBrace] ++ ascii " .. " ++ [closeBrace]

end DebugStruct

def KernelKind.debug : KernelKind → Text
  | bitsetLookup => ascii "BitsetLookup"
  | smallSet => ascii "SmallSet"
  | fixedNibble => ascii "FixedNibble"
  | oneByte => ascii "OneByte"
  | notByte => ascii "NotByte"
  | twoBytes => ascii "TwoBytes"
  | threeBytes => ascii "ThreeBytes"
  | oneRange => ascii "OneRange"
  | never => ascii "Never"

-- the text of a level is made by the crate that provides it
variable (levelText : Bool → Level → Text) (alternate : Bool)

/-- The derived `fmt`, by way of `Formatter::debug_tuple`. -/
def Engine.debug : Engine → Text
  | vector level =>
    ascii "Vector" ++ [openParen] ++
      (if alternate then newline :: padAdapter true (levelText alternate level ++ [comma, newline])
        else levelText alternate level) ++
      [closeParen]
  | swar => ascii "Swar"

def Searcher.debug (finder : Searcher) : Text :=
  ((DebugStruct.new alternate (ascii "MemchrN")).field (ascii "engine")
      (finder.search.engine.debug levelText alternate)).field (ascii "kernel_kind")
        finder.search.kernelKind.debug |>.finishNonExhaustive

def Iter.debug (it : Iter) : Text :=
  (((((DebugStruct.new alternate (ascii "Iter")).field (ascii "finder")
      (it.finder.debug levelText alternate)).field (ascii "haystack_len")
        (decimal it.state.haystack.length)).field (ascii "scan_offset")
          (decimal it.state.scanOffset)).field (ascii "match_base")
            (decimal it.state.matchBase)).field (ascii "match_bits")
              (decimal it.matchBits.toNat) |>.finish

end Definitions

section Reader

/-- What the text of an iterator tells. -/
structure DebugView where
  isVector : Bool
  kernelKind : KernelKind
  haystackLen : ℕ
  scanOffset : ℕ
  matchBase : ℕ
  matchBits : ℕ
  deriving DecidableEq, Repr

def Engine.isVector : Engine → Bool
  | vector _ => true
  | swar => false

def Iter.view (it : Iter) : DebugView where
  isVector := it.finder.search.engine.isVector
  kernelKind := it.finder.search.kernelKind
  haystackLen := it.state.haystack.length
  scanOffset := it.state.scanOffset
  matchBase := it.state.matchBase
  matchBits := it.matchBits.toNat

end Reader

section Squeeze

namespace DebugStruct

variable (fields : DebugStruct) (name value : Text)

end DebugStruct

end Squeeze

section Reading

end Reading

section Views

variable (levelText : Bool → Level → Text) (alternate : Bool)

end Views

variable [Target] [Host]

example : (Searcher.ofNever.iter [0x61#8, 0x62#8]).debug (fun _ _ => []) false =
    ascii "Iter \x7b finder: MemchrN \x7b engine: Swar, kernel_kind: Never, .. \x7d, " ++
      ascii "haystack_len: 2, scan_offset: 0, match_base: 0, match_bits: 0 \x7d" := by
  decide

end MemchrN
