import Wildcard.Proofs.PlainPrefix

/-! Texts that write out other texts.

    A text without a live wildcard is a way to write out one other text: each character stands for
    itself, and an escape stands for the character behind it. So any text can be written out by
    putting an escape before each metacharacter. And a text without `*`, `?` and `+` need not write
    out itself, as the escapes in it are left out:

        text      a \* \\ b        writes out      a * \ b
        text      a \b             writes out      a b
        text      a / \            writes out      a /         the last escape has nothing behind it

    Whether there is a `*`, `?` or `+` at all can be told from the bytes of a text: they are
    characters of one byte each, and no byte of a longer character looks like one of them. -/

namespace Wildcard

/-- How a text writes out another one. The separator stands for itself wherever it is, even if it is
    a metacharacter; nothing is escaped if it is the escape itself. -/
inductive Writes (separator : Option Char) : List Char → List Char → Prop
  | nil : Writes separator [] []
  /-- An escape at the end stands for nothing. -/
  | trailing (hs : separator ≠ some escapeChar) : Writes separator [escapeChar] []
  /-- The character behind an escape stands for itself. -/
  | escaped (hs : separator ≠ some escapeChar) (c : Char) {cs us : List Char}
    (rest : Writes separator cs us) : Writes separator (escapeChar :: c :: cs) (c :: us)
  /-- The separator, and what has no meaning of its own, stands for itself. -/
  | plain {c : Char} (hc : separator = some c ∨ isMetacharacter c = false) {cs us : List Char}
    (rest : Writes separator cs us) : Writes separator (c :: cs) (c :: us)

/-- A text with an escape before each metacharacter. -/
def quote (text : String) : String :=
  .ofList (text.toList.flatMap fun c => if isMetacharacter c then [escapeChar, c] else [c])

/-- A text without its escapes; the character behind an escape is none. -/
def unescape (separator : Option Char) : List Char → List Char
  | [] => []
  | c :: cs =>
    if c = escapeChar ∧ separator ≠ some escapeChar then
      match cs with
      | [] => []
      | d :: ds => d :: unescape separator ds
    else c :: unescape separator cs

/-- The position of the first byte that is `*`, `?` or `+`. -/
def findWildcardByte? (bytes : ByteArray) : Option ℕ :=
  bytes.data.findIdx? fun b => b = '*'.toUInt8 || b = '?'.toUInt8 || b = '+'.toUInt8

/-! ### Reading -/

namespace Slot

variable {separator : Option Char}

/-- The separator is read as such, and leads back to the first state. -/
theorem read_cons_separator {c : Char} (hc : separator = some c) (before : Context)
    (cs : List Char) :
    read separator before (c :: cs) = .live (.ofPlain separator c) :: read separator .plain cs := by
  simp [read, classify, Context.next, Token.ofPlain, hc]

/-- The character behind an escape is read as itself, whatever it is. -/
theorem read_cons_escaped (hs : separator ≠ some escapeChar) (c : Char) (cs : List Char) :
    read separator .plain (escapeChar :: c :: cs) =
      .escape :: .live (.ofPlain separator c) :: read separator .plain cs := by
  have hnext : Context.next separator .plain escapeChar = .escaped := by
    simp [Context.next, hs]
  have hplain : Context.next separator .escaped c = .plain := by
    simp [Context.next]
  rw [read, hnext, read, hplain]
  congr 1
  · simp [classify, hs]
  · congr 1
    rw [classify, Token.ofPlain]
    split <;> rfl

/-- The tokens of a text that writes out another one are the characters of that one. -/
theorem filterMap_read_of_writes {cs us : List Char} (h : Writes separator cs us) :
    (read separator .plain cs).filterMap token? = us.map (.ofPlain separator) := by
  have live : ∀ c, token? (.live (.ofPlain separator c)) = some (.ofPlain separator c) :=
    fun _ => rfl
  induction h with
  | nil => rfl
  | trailing hs => simp [read, classify, hs, token?]
  | escaped hs c rest ih =>
    rw [read_cons_escaped hs, List.filterMap_cons_none rfl, List.filterMap_cons_some (live _), ih,
      List.map_cons]
  | @plain c hc cs us rest ih =>
    have hread : read separator .plain (c :: cs) =
        .live (.ofPlain separator c) :: read separator .plain cs := by
      rcases hc with hc | hc
      · exact read_cons_separator hc .plain cs
      · have alone : ∀ d ∈ [c], isMetacharacter d = false := List.forall_mem_singleton.mpr hc
        exact read_append_plain separator alone cs
    rw [hread, List.filterMap_cons_some (live c), ih, List.map_cons]

end Slot

namespace Pattern

variable {separator : Option Char} {text : String} {us : List Char}

theorem tokens_of_writes (h : Writes separator text.toList us) :
    (compile text separator).tokens = us.map (Token.ofPlain separator) := by
  have plain : ∀ t ∈ us.map (Token.ofPlain separator), t.isWildcard = false :=
    fun t => Token.isWildcard_of_mem_map_ofPlain
  have merged := Token.mergeStars_append_plain plain []
  rw [List.append_nil, Token.mergeStars_nil, List.append_nil] at merged
  rw [tokens_compile, Slot.filterMap_read_of_writes h, merged]

theorem isLiteral_of_writes (h : Writes separator text.toList us) :
    (compile text separator).isLiteral := by
  rw [isLiteral_iff, tokens_of_writes h]
  exact fun t => Token.isWildcard_of_mem_map_ofPlain

theorem spells_iff_of_writes (h : Writes separator text.toList us) (s : String) :
    (compile text separator).spells s ↔ s = String.ofList us := by
  rw [spells, tokens_of_writes h, Token.map_symbol_ofPlain, decide_eq_true_eq, eq_comm,
    String.ext_iff, String.toList_ofList]

/-- A text that writes out another one matches that one only. -/
theorem isMatch_iff_of_writes (h : Writes separator text.toList us) (s : String) :
    (compile text separator).isMatch s ↔ s = String.ofList us := by
  rw [isMatch, if_pos (isLiteral_of_writes h), spells_iff_of_writes h]

/-- Nothing is left in the mask. -/
theorem mask?_of_writes (h : Writes separator text.toList us) :
    (compile text separator).mask? (String.ofList us) = some "" := by
  rw [mask?, if_pos (isLiteral_of_writes h), if_pos ((spells_iff_of_writes h _).mpr rfl)]

end Pattern

/-! ### Quoting -/

/-- A quoted text writes out the text itself. -/
theorem writes_quote {separator : Option Char} (hs : separator ≠ some escapeChar)
    (text : String) : Writes separator (quote text).toList text.toList := by
  rw [quote, String.toList_ofList]
  induction text.toList with
  | nil => exact .nil
  | cons c cs ih =>
    rw [List.flatMap_cons]
    by_cases hc : isMetacharacter c
    · rw [if_pos hc]
      exact .escaped hs c ih
    · rw [if_neg hc]
      exact .plain (Or.inr (Bool.not_eq_true _ ▸ hc)) ih

namespace Pattern

/-- A quoted text is a plain pattern with the characters of the text for tokens. It matches the text
    and no other, and nothing is left in the mask. -/
theorem quote_matches_itself {separator : Option Char} (hs : separator ≠ some escapeChar)
    (text : String) :
    let p := compile (quote text) separator
    p.isLiteral ∧ p.symbols = text.toList ++ ['\x00'] ∧ (∀ s, p.isMatch s ↔ s = text) ∧
      p.mask? text = some "" := by
  intro p
  have writes := writes_quote hs text
  refine ⟨isLiteral_of_writes writes, ?_, fun s => ?_, ?_⟩
  · rw [symbols, tokens_of_writes writes, Token.map_symbol_ofPlain]
  · rw [isMatch_iff_of_writes writes, String.ofList_toList]
  · have mask := mask?_of_writes writes
    rwa [String.ofList_toList] at mask

/-- The separator is a metacharacter, and stands in the text behind an escape. -/
theorem quote_matches_itself_of_star :
    some '*' ≠ some escapeChar ∧
      (compile (quote "a\\*?\\\\") (some '*')).isLiteral ∧
      (compile (quote "a\\*?\\\\") (some '*')).symbols = "a\\*?\\\\".toList ++ ['\x00'] ∧
      (∀ s, (compile (quote "a\\*?\\\\") (some '*')).isMatch s ↔ s = "a\\*?\\\\") ∧
      (compile (quote "a\\*?\\\\") (some '*')).mask? "a\\*?\\\\" = some "" :=
  have hs : some '*' ≠ some escapeChar := by decide
  ⟨hs, quote_matches_itself hs "a\\*?\\\\"⟩

end Pattern

/-! ### Texts without wildcards -/

theorem containsWildcard_eq_false_iff {text : String} :
    containsWildcard text = false ↔ ∀ c ∈ text.toList, c ≠ '*' ∧ c ≠ '?' ∧ c ≠ '+' := by
  simp [containsWildcard, and_assoc]

/-- A text without wildcards writes out what is left without its escapes. -/
theorem writes_unescape (separator : Option Char) {cs : List Char}
    (h : ∀ c ∈ cs, c ≠ '*' ∧ c ≠ '?' ∧ c ≠ '+') :
    Writes separator cs (unescape separator cs) := by
  fun_induction unescape separator cs with
  | case1 => exact .nil
  | case2 c he =>
    obtain ⟨rfl, hs⟩ := he
    exact .trailing hs
  | case3 c he d ds ih =>
    obtain ⟨rfl, hs⟩ := he
    exact .escaped hs d (ih fun c hc => h c (List.mem_cons_of_mem _ (List.mem_cons_of_mem d hc)))
  | case4 c cs he ih =>
    obtain ⟨hc, hcs⟩ := List.forall_mem_cons.mp h
    refine .plain ?_ (ih hcs)
    by_cases hescape : c = escapeChar
    · rw [hescape]
      exact Or.inl (by_contra fun hs => he ⟨hescape, hs⟩)
    · exact Or.inr (by simp [isMetacharacter, hc, hescape])

theorem length_unescape_le (separator : Option Char) (cs : List Char) :
    (unescape separator cs).length ≤ cs.length := by
  fun_induction unescape separator cs with
  | case1 => exact le_rfl
  | case2 c he => exact Nat.zero_le _
  | case3 c he d ds ih =>
    simp only [List.length_cons]
    omega
  | case4 c cs he ih => exact Nat.succ_le_succ ih

/-- Nothing is left out if there is no escape, or if the separator hides all of them. -/
theorem unescape_eq_self_iff {separator : Option Char} {cs : List Char} :
    unescape separator cs = cs ↔ separator = some escapeChar ∨ escapeChar ∉ cs := by
  fun_induction unescape separator cs with
  | case1 => simp
  | case2 c he =>
    obtain ⟨rfl, hs⟩ := he
    simp [hs]
  | case3 c he d ds ih =>
    -- what is left is too short
    obtain ⟨rfl, hs⟩ := he
    have hle := length_unescape_le separator ds
    refine iff_of_false (fun h => ?_) (by simp [hs])
    have hlen := congrArg List.length h
    simp only [List.length_cons] at hlen
    omega
  | case4 c cs he ih =>
    rw [List.cons_inj_right, ih, List.mem_cons, not_or]
    grind

/-! ### Looking for a byte -/

/-- The bytes of a character of more than one byte are no characters of one byte. -/
theorem le_toNat_of_mem_utf8EncodeChar {c : Char} (hc : 128 ≤ c.val.toNat) {b : UInt8}
    (hb : b ∈ String.utf8EncodeChar c) : 128 ≤ b.toNat := by
  have hle : ¬c.val.toNat ≤ 127 := by omega
  have byte : ∀ n, 128 ≤ n → n < 256 → 128 ≤ (UInt8.ofNat n).toNat := by
    intro n hn hlt
    rwa [UInt8.toNat_ofNat_of_lt' hlt]
  rw [String.utf8EncodeChar, if_neg hle] at hb
  generalize c.val.toNat = v at hb
  split at hb
  · simp only [List.mem_cons, List.not_mem_nil, or_false] at hb
    rcases hb with rfl | rfl <;> exact byte _ (by omega) (by omega)
  · split at hb
    · simp only [List.mem_cons, List.not_mem_nil, or_false] at hb
      rcases hb with rfl | rfl | rfl <;> exact byte _ (by omega) (by omega)
    · simp only [List.mem_cons, List.not_mem_nil, or_false] at hb
      rcases hb with rfl | rfl | rfl | rfl <;> exact byte _ (by omega) (by omega)

/-- A character of one byte is met in itself only. -/
theorem mem_utf8EncodeChar_iff {a : Char} (ha : a.val.toNat < 128) {c : Char} :
    a.toUInt8 ∈ String.utf8EncodeChar c ↔ c = a := by
  have hbyte : a.toUInt8.toNat = a.val.toNat := by
    rw [Char.toUInt8, UInt32.toNat_toUInt8]
    omega
  rcases Nat.lt_or_ge c.val.toNat 128 with hc | hc
  · have hle : c.val.toNat ≤ 127 := by omega
    have hlt : c.val.toNat < UInt8.size := hc.trans (by decide)
    rw [String.utf8EncodeChar, if_pos hle, List.mem_singleton, ← UInt8.toNat_inj, hbyte,
      UInt8.toNat_ofNat_of_lt' hlt, UInt32.toNat_inj, Char.val_inj, eq_comm]
  · refine iff_of_false (fun h => ?_) (by rintro rfl; omega)
    have := le_toNat_of_mem_utf8EncodeChar hc h
    omega

/-- A character of one byte is among the bytes of a text just when it is in the text. -/
theorem mem_toUTF8_iff {a : Char} (ha : a.val.toNat < 128) {text : String} :
    a.toUInt8 ∈ text.toUTF8.data ↔ a ∈ text.toList := by
  have bytes : text.toUTF8.data.toList = text.toList.flatMap String.utf8EncodeChar := by
    rw [String.toUTF8_eq_toByteArray, ← String.utf8Encode_toList, List.utf8Encode,
      List.toList_data_toByteArray]
  simp only [← Array.mem_toList_iff, bytes, List.mem_flatMap, mem_utf8EncodeChar_iff ha,
    exists_eq_right]

/-- The bytes of a text tell whether there is a wildcard in it. -/
theorem findWildcardByte?_eq_none_iff {text : String} :
    findWildcardByte? text.toUTF8 = none ↔ containsWildcard text = false := by
  have absent : ∀ a : Char, a.val.toNat < 128 →
      ((∀ b ∈ text.toUTF8.data, b ≠ a.toUInt8) ↔ ∀ c ∈ text.toList, c ≠ a) := by
    intro a ha
    rw [Array.forall_mem_ne', List.forall_mem_ne', mem_toUTF8_iff ha]
  rw [containsWildcard_eq_false_iff, findWildcardByte?, Array.findIdx?_eq_none_iff]
  simp only [Bool.or_eq_false_iff, decide_eq_false_iff_not, and_assoc, forall₂_and]
  exact and_congr (absent '*' (by decide))
    (and_congr (absent '?' (by decide)) (absent '+' (by decide)))

namespace Pattern

/-- A text in which no wildcard is found, by its bytes or by its characters, matches what is left of
    it without its escapes, and nothing else. So it may be compared instead of matched just when
    there is no escape in it, or the separator hides all of them. -/
theorem isMatch_iff_eq_unescape {text : String} (h : containsWildcard text = false)
    (separator : Option Char) :
    findWildcardByte? text.toUTF8 = none ∧
      (∀ s, (compile text separator).isMatch s ↔
        s = String.ofList (unescape separator text.toList)) ∧
      ((∀ s, (compile text separator).isMatch s ↔ s = text) ↔
        separator = some escapeChar ∨ escapeChar ∉ text.toList) := by
  have writes := writes_unescape separator (containsWildcard_eq_false_iff.mp h)
  have matched := isMatch_iff_of_writes writes
  refine ⟨findWildcardByte?_eq_none_iff.mpr h, matched, ?_⟩
  rw [← unescape_eq_self_iff]
  constructor
  · intro compared
    have same := (matched text).mp ((compared text).mpr rfl)
    conv_rhs => rw [same]
    rw [String.toList_ofList]
  · intro same s
    rw [matched, same, String.ofList_toList]

/-- A text with an escape in it does not match itself, though it has no wildcard. -/
theorem not_isMatch_self_of_escape :
    containsWildcard "a\\b" = false ∧ (compile "a\\b" none).isMatch "a\\b" = false ∧
      (compile "a\\b" none).isMatch "ab" := by
  decide +kernel

/-- There are escapes before the separator, before an escape, and before nothing. -/
theorem isMatch_iff_eq_unescape_of_escapes :
    containsWildcard "a\\/\\\\b\\" = false ∧
      (∀ s, (compile "a\\/\\\\b\\" (some '/')).isMatch s ↔ s = "a/\\b") ∧
      ¬∀ s, (compile "a\\/\\\\b\\" (some '/')).isMatch s ↔ s = "a\\/\\\\b\\" := by
  have h : containsWildcard "a\\/\\\\b\\" = false := by decide
  have left : unescape (some '/') "a\\/\\\\b\\".toList = "a/\\b".toList := by decide +kernel
  obtain ⟨-, matched, compared⟩ := isMatch_iff_eq_unescape h (some '/')
  rw [left, String.ofList_toList] at matched
  exact ⟨h, matched, compared.not.mpr (by decide)⟩

end Pattern

end Wildcard
