import MemchrN.Search.Lookups

namespace MemchrN

section Definitions

/-- Text, as the bytes of its characters. -/
abbrev Text := List U8

abbrev quote : U8 := 0x27#8
abbrev backslash : U8 := 0x5C#8
abbrev newline : U8 := 0x0A#8
abbrev space : U8 := 0x20#8
abbrev comma : U8 := 0x2C#8
abbrev openBrace : U8 := 0x7B#8
abbrev closeBrace : U8 := 0x7D#8

/-- A lower-case hexadecimal digit. -/
def hexDigit (n : U8) : U8 := if n < 10#8 then 0x30#8 + n else 0x57#8 + n

/-- `u8::escape_ascii`. -/
def escapeAscii (byte : U8) : Text :=
  if byte = 0x09#8 then [backslash, 0x74#8]
  else if byte = 0x0D#8 then [backslash, 0x72#8]
  else if byte = 0x0A#8 then [backslash, 0x6E#8]
  else if byte = quote ∨ byte = 0x22#8 ∨ byte = backslash then [backslash, byte]
  else if 0x20#8 ≤ byte ∧ byte ≤ 0x7E#8 then [byte]
  else [backslash, 0x78#8, hexDigit (byte >>> 4), hexDigit (byte &&& 0x0F#8)]

/-- `format_args!("b'{}'", byte.escape_ascii())`. -/
def byteLiteral (byte : U8) : Text := 0x62#8 :: quote :: (escapeAscii byte ++ [quote])

/-- `PadAdapter` indents every line. The flag tells whether the text goes on at the start of one. -/
def padAdapter : Bool → Text → Text
  | _, [] => []
  | true, c :: text => List.replicate 4 space ++ c :: padAdapter (c == newline) text
  | false, c :: text => c :: padAdapter (c == newline) text

/-- The builder of `Formatter::debug_set`; `alternate` is the flag of `{:#?}`. -/
structure DebugSet where
  alternate : Bool
  text : Text
  hasFields : Bool

namespace DebugSet

def new (alternate : Bool) : DebugSet where
  alternate := alternate
  text := [openBrace]
  hasFields := false

def entry (members : DebugSet) (entry : Text) : DebugSet :=
  let text :=
    if members.alternate then
      members.text ++ (if members.hasFields then [] else [newline]) ++
        padAdapter true (entry ++ [comma, newline])
    else members.text ++ (if members.hasFields then [comma, space] else []) ++ entry
  { members with text := text, hasFields := true }

def finish (members : DebugSet) : Text := members.text ++ [closeBrace]

end DebugSet

namespace ByteSet

def debugStep (set : ByteSet) (members : DebugSet) (byte : U8) : DebugSet :=
  if set.contains byte then members.entry (byteLiteral byte) else members

/-- `fmt`: every byte value is tried in order. -/
def debug (set : ByteSet) (alternate : Bool) : Text :=
  (((List.range 256).map (BitVec.ofNat 8)).foldl set.debugStep (DebugSet.new alternate)).finish

end ByteSet

end Definitions

section Reader

def hexValue (c : U8) : U8 := if c < 0x61#8 then c - 0x30#8 else c - 0x57#8

/-- The byte that the body of a byte literal stands for, and the text behind it. -/
def unescape : Text → Option (U8 × Text)
  | [] => none
  | c :: rest =>
    if c ≠ backslash then some (c, rest)
    else match rest with
      | [] => none
      | c :: rest =>
        if c = 0x78#8 then match rest with
          | hi :: lo :: rest => some (hexValue hi <<< 4 ||| hexValue lo, rest)
          | _ => none
        else if c = 0x74#8 then some (0x09#8, rest)
        else if c = 0x72#8 then some (0x0D#8, rest)
        else if c = 0x6E#8 then some (0x0A#8, rest)
        else some (c, rest)

def isSeparator (c : U8) : Bool := c == comma || c == space || c == newline

/-- Reads byte literals up to the closing brace, whatever separates them. -/
def readLiterals : ℕ → Text → Option (List U8)
  | 0, _ => none
  | fuel + 1, text =>
    match text.dropWhile isSeparator with
    | [c] => if c = closeBrace then some [] else none
    | c :: d :: rest =>
      if c = 0x62#8 ∧ d = quote then do
        let (byte, rest) ← unescape rest
        match rest with
        | e :: rest => if e = quote then (byte :: ·) <$> readLiterals fuel rest else none
        | [] => none
      else none
    | [] => none

/-- Reads a set of byte literals, as the source language writes them. -/
def readSet : Text → Option (List U8)
  | c :: text => if c = openBrace then readLiterals (text.length + 1) text else none
  | [] => none

end Reader

theorem hexValue_nibbles (byte : U8) :
    hexValue (hexDigit (byte >>> 4)) <<< 4 ||| hexValue (hexDigit (byte &&& 0x0F#8)) = byte := by
  revert byte
  decide

theorem unescape_escapeAscii (byte : U8) (rest : Text) :
    unescape (escapeAscii byte ++ rest) = some (byte, rest) := by
  rw [escapeAscii]
  split_ifs with htab hreturn hnewline hquoted hprintable
  · rw [htab]
    rfl
  · rw [hreturn]
    rfl
  · rw [hnewline]
    rfl
  · rcases hquoted with rfl | rfl | rfl <;> rfl
  · have hplain : byte ≠ backslash := fun h => hquoted (.inr (.inr h))
    simp [unescape, hplain]
  · simp [unescape, hexValue_nibbles]

theorem hexDigit_printable : ∀ n : U8, n < 16#8 → 0x20#8 ≤ hexDigit n ∧ hexDigit n ≤ 0x7E#8 := by
  decide

/-- Escapes are made of printable characters. -/
theorem escapeAscii_printable (byte : U8) : ∀ c ∈ escapeAscii byte, 0x20#8 ≤ c ∧ c ≤ 0x7E#8 := by
  rw [escapeAscii]
  split_ifs with htab hreturn hnewline hquoted hprintable
  · decide
  · decide
  · decide
  · rcases hquoted with rfl | rfl | rfl <;> decide
  · simpa using hprintable
  · have hhigh := hexDigit_printable (byte >>> 4) (nibble_high_lt byte)
    have hlow := hexDigit_printable (byte &&& 0x0F#8) (nibble_low_lt byte)
    simpa using ⟨hhigh, hlow⟩

theorem byteLiteral_printable (byte : U8) :
    ∀ c ∈ byteLiteral byte, 0x20#8 ≤ c ∧ c ≤ 0x7E#8 := by
  intro c hc
  simp only [byteLiteral, List.mem_cons, List.mem_append, List.not_mem_nil, or_false] at hc
  rcases hc with rfl | rfl | hc | rfl
  · decide
  · decide
  · exact escapeAscii_printable byte c hc
  · decide

/-- A text on one line is indented once, and so is its end. -/
theorem padAdapter_line {text : Text} (hne : text ≠ []) (h : ∀ c ∈ text, c ≠ newline) :
    padAdapter true (text ++ [comma, newline]) =
      List.replicate 4 space ++ text ++ [comma, newline] := by
  have hrest (l : Text) (hl : ∀ c ∈ l, c ≠ newline) :
      padAdapter false (l ++ [comma, newline]) = l ++ [comma, newline] := by
    induction l with
    | nil => rfl
    | cons c l ih =>
      obtain ⟨hc, hl⟩ := List.forall_mem_cons.mp hl
      rw [List.cons_append, padAdapter, beq_eq_false_iff_ne.mpr hc, ih hl]
  cases text with
  | nil => exact absurd rfl hne
  | cons c l =>
    obtain ⟨hc, hl⟩ := List.forall_mem_cons.mp h
    rw [List.cons_append, padAdapter, beq_eq_false_iff_ne.mpr hc, hrest l hl, List.append_assoc,
      List.cons_append]

section Layout

/-- A text that lists these bytes up to the closing brace, with separators before each. -/
inductive Lists : List U8 → Text → Prop
  | done : Lists [] [closeBrace]
  | literal {bytes : List U8} {text : Text} (byte : U8) (h : Lists bytes text) :
    Lists (byte :: bytes) (byteLiteral byte ++ text)
  | separator {bytes : List U8} {text : Text} {c : U8} (hc : isSeparator c = true)
    (h : Lists bytes text) : Lists bytes (c :: text)

theorem Lists.separators {bytes : List U8} {text seps : Text} (h : Lists bytes text)
    (hseps : seps.all isSeparator = true) : Lists bytes (seps ++ text) := by
  induction seps with
  | nil => exact h
  | cons c seps ih =>
    rw [List.all_cons, Bool.and_eq_true] at hseps
    exact .separator hseps.1 (ih hseps.2)

/-- The reader takes as many turns as there are bytes, and one for the brace. -/
theorem Lists.readLiterals {bytes : List U8} {text : Text} (h : Lists bytes text) {fuel : ℕ}
    (hfuel : bytes.length < fuel) : readLiterals fuel text = some bytes := by
  induction h generalizing fuel with
  | done =>
    cases fuel with
    | zero => omega
    | succ fuel => rfl
  | @literal bytes text byte _ ih =>
    cases fuel with
    | zero => omega
    | succ fuel =>
      rw [List.length_cons] at hfuel
      have hread : MemchrN.readLiterals fuel text = some bytes := ih (by omega)
      have hdrop : (byteLiteral byte ++ text).dropWhile isSeparator = byteLiteral byte ++ text := rfl
      rw [MemchrN.readLiterals, hdrop]
      simp [byteLiteral, unescape_escapeAscii, hread]
  | separator hc _ ih =>
    cases fuel with
    | zero => omega
    | succ fuel =>
      rw [← ih hfuel, MemchrN.readLiterals, MemchrN.readLiterals, List.dropWhile_cons_of_pos hc]

theorem Lists.length_lt {bytes : List U8} {text : Text} (h : Lists bytes text) :
    bytes.length < text.length := by
  induction h with
  | done => exact Nat.zero_lt_one
  | @literal bytes text byte _ ih =>
    rw [List.length_append, List.length_cons, byteLiteral, List.length_cons]
    omega
  | separator _ _ ih =>
    rw [List.length_cons]
    omega

/-- What is written so far lists these bytes in front of whatever is listed behind it. -/
def ListsFront (bytes : List U8) (front : Text) : Prop :=
  ∀ rest text, Lists rest text → Lists (bytes ++ rest) (front ++ text)

theorem ListsFront.literal {bytes : List U8} {front before behind : Text} (h : ListsFront bytes front)
    (hbefore : before.all isSeparator = true) (hbehind : behind.all isSeparator = true) (byte : U8) :
    ListsFront (bytes ++ [byte]) (front ++ before ++ (byteLiteral byte ++ behind)) := by
  intro rest text htext
  have hnext := (Lists.literal byte (htext.separators hbehind)).separators hbefore
  simpa only [List.append_assoc, List.singleton_append] using h _ _ hnext

/-- The builder has written an opening brace and the literals of these bytes, with nothing but
printable characters and, when it indents, line ends. -/
structure DebugSet.Wrote (alternate : Bool) (bytes : List U8) (members : DebugSet) : Prop where
  alternate_eq : members.alternate = alternate
  front : ∃ front, members.text = openBrace :: front ∧ ListsFront bytes front
  printable : ∀ c ∈ members.text, (0x20#8 ≤ c ∧ c ≤ 0x7E#8) ∨ alternate = true ∧ c = newline

variable {alternate : Bool} {bytes : List U8} {members : DebugSet}

theorem DebugSet.new_wrote : (new alternate).Wrote alternate [] where
  alternate_eq := rfl
  front := ⟨[], rfl, fun _ _ h => h⟩
  printable := by
    intro c hc
    obtain rfl := List.mem_singleton.mp hc
    exact .inl (by decide)

/-- In both layouts an entry is its literal between separators. -/
theorem DebugSet.entry_text (members : DebugSet) (byte : U8) : ∃ before behind,
    (members.entry (byteLiteral byte)).text = members.text ++ before ++ (byteLiteral byte ++ behind) ∧
      before.all isSeparator = true ∧ behind.all isSeparator = true ∧
      ∀ c ∈ before ++ behind, c = comma ∨ c = space ∨ members.alternate = true ∧ c = newline := by
  have hline : ∀ c ∈ byteLiteral byte, c ≠ newline := by
    intro c hc he
    have hprintable := (byteLiteral_printable byte c hc).1
    rw [he] at hprintable
    exact absurd hprintable (by decide)
  have hpad := padAdapter_line (show byteLiteral byte ≠ [] by simp [byteLiteral]) hline
  cases halternate : members.alternate with
  | true =>
    refine ⟨(if members.hasFields then [] else [newline]) ++ List.replicate 4 space,
      [comma, newline], ?_, ?_, rfl, ?_⟩
    · simp only [entry, halternate, if_true, hpad, List.append_assoc]
    · cases members.hasFields <;> rfl
    · cases members.hasFields <;> simp
  | false =>
    refine ⟨if members.hasFields then [comma, space] else [], [], ?_, ?_, rfl, ?_⟩
    · simp only [entry, halternate, Bool.false_eq_true, if_false, List.append_nil]
    · cases members.hasFields <;> rfl
    · cases members.hasFields <;> simp

theorem DebugSet.Wrote.entry (h : members.Wrote alternate bytes) (byte : U8) :
    (members.entry (byteLiteral byte)).Wrote alternate (bytes ++ [byte]) := by
  obtain ⟨rfl, ⟨front, htext, hfront⟩, hprintable⟩ := h
  obtain ⟨before, behind, hentry, hbefore, hbehind, hseps⟩ := members.entry_text byte
  refine ⟨rfl, ⟨front ++ before ++ (byteLiteral byte ++ behind), ?_, ?_⟩, ?_⟩
  · rw [hentry, htext, List.cons_append, List.cons_append]
  · exact hfront.literal hbefore hbehind byte
  · have hsep (c : U8) (hc : c ∈ before ++ behind) :
        (0x20#8 ≤ c ∧ c ≤ 0x7E#8) ∨ members.alternate = true ∧ c = newline := by
      rcases hseps c hc with rfl | rfl | hnewline
      · exact .inl (by decide)
      · exact .inl (by decide)
      · exact .inr hnewline
    intro c hc
    rw [hentry] at hc
    simp only [List.mem_append] at hc
    rcases hc with (hold | hc) | hliteral | hc
    · exact hprintable c hold
    · exact hsep c (List.mem_append_left behind hc)
    · exact .inl (byteLiteral_printable byte c hliteral)
    · exact hsep c (List.mem_append_right before hc)

end Layout

namespace ByteSet

variable (set : ByteSet)

theorem debugLoop_spec (alternate : Bool) (tried : List U8) :
    (tried.foldl set.debugStep (DebugSet.new alternate)).Wrote alternate
      (tried.filter set.contains) := by
  induction tried using List.reverseRecOn with
  | nil => exact DebugSet.new_wrote
  | append_singleton tried byte ih =>
    rw [List.foldl_concat, List.filter_append, debugStep]
    by_cases hbyte : set.contains byte = true
    · rw [if_pos hbyte, List.filter_singleton, hbyte]
      exact ih.entry byte
    · rw [if_neg hbyte, List.filter_singleton, Bool.eq_false_iff.mpr hbyte, cond_false,
        List.append_nil]
      exact ih

theorem members_tried :
    ((List.range 256).map (BitVec.ofNat 8)).filter set.contains = set.memberList := by
  rw [memberList, ← filter_contains_range, List.filter_map]
  rfl

/-- The text of a set can be read back. Both layouts list the members in ascending order as byte
literals, in printable characters alone apart from the line ends of the indented one; so different
sets have different texts. -/
theorem debug_round_trip :
    (∀ (set : ByteSet) (alternate : Bool), ∃ members : List U8,
      readSet (set.debug alternate) = some members ∧ members.Pairwise (· < ·) ∧
      (∀ b, b ∈ members ↔ set.contains b = true) ∧
      ∀ c ∈ set.debug alternate, (0x20#8 ≤ c ∧ c ≤ 0x7E#8) ∨ alternate = true ∧ c = newline) ∧
    ∀ (set set' : ByteSet) (alternate alternate' : Bool),
      set.debug alternate = set'.debug alternate' → set = set' := by
  have hread (set : ByteSet) (alternate : Bool) :
      readSet (set.debug alternate) = some set.memberList := by
    obtain ⟨-, ⟨front, htext, hfront⟩, -⟩ :=
      set.debugLoop_spec alternate ((List.range 256).map (BitVec.ofNat 8))
    have hlists := hfront [] [closeBrace] .done
    rw [List.append_nil, members_tried] at hlists
    rw [debug, DebugSet.finish, htext, List.cons_append, readSet, if_pos rfl]
    exact hlists.readLiterals (hlists.length_lt.trans (Nat.lt_succ_self _))
  constructor
  · intro set alternate
    refine ⟨set.memberList, hread set alternate, set.memberList_sorted, set.mem_memberList, ?_⟩
    intro c hc
    obtain ⟨-, -, hprintable⟩ :=
      set.debugLoop_spec alternate ((List.range 256).map (BitVec.ofNat 8))
    rcases List.mem_append.mp hc with hc | hc
    · exact hprintable c hc
    · obtain rfl := List.mem_singleton.mp hc
      exact .inl (by decide)
  · intro set set' alternate alternate' h
    have hlist := hread set alternate
    rw [h, hread] at hlist
    apply ext_of_contains
    intro b
    rw [Bool.eq_iff_iff, ← mem_memberList, ← mem_memberList, Option.some.inj hlist]

example : (ByteSet.fromBytes [0x61#8, 0x0A#8]).debug false =
    [0x7B#8, 0x62#8, 0x27#8, 0x5C#8, 0x6E#8, 0x27#8, 0x2C#8, 0x20#8, 0x62#8, 0x27#8, 0x61#8, 0x27#8,
      0x7D#8] := by
  decide +kernel

end ByteSet

end MemchrN
