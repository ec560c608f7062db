import Mathlib.Data.List.Basic
import ViewCompiler.Log
import ViewCompiler.Proofs.JsonReading

/-!
Log records as JSON. A record is one line, and the line denotes the object that has the time, the level,
the tag and the message of the record, as long as the only control characters of the message are line
feeds, carriage returns and tabs (`Log.Record.json_denotes_iff`).
-/

namespace ViewCompiler

/-! ## Characters as bytes -/

namespace Bytes

variable {c : Char} {b : UInt8}

theorem utf8EncodeChar_of_lt (h : c.toNat < 128) : String.utf8EncodeChar c = [c.toUInt8] := by
  have hle : c.val.toNat ≤ 127 := Nat.le_of_lt_succ h
  rw [String.utf8EncodeChar, if_pos hle]
  rfl

theorem toUInt8_ne {m : Char} (h : c.toNat < 128) (hne : c ≠ m) (hm : m.toNat < 128) :
    c.toUInt8 ≠ m.toUInt8 := by
  intro heq
  have htoNat {d : Char} (hd : d.toNat < 128) : d.toUInt8.toNat = d.toNat :=
    Nat.mod_eq_of_lt (Nat.lt_trans hd (by decide))
  have hsame : c.toNat = m.toNat := by rw [← htoNat h, ← htoNat hm, heq]
  exact hne (Char.toNat_inj.1 hsame)

theorem flatMap_utf8EncodeChar_of_lt {cs : List Char} (h : ∀ c ∈ cs, c.toNat < 128) :
    cs.flatMap String.utf8EncodeChar = cs.map Char.toUInt8 := by
  induction cs with
  | nil => rfl
  | cons c cs ih =>
    rw [List.forall_mem_cons] at h
    rw [List.flatMap_cons, utf8EncodeChar_of_lt h.1, ih h.2]
    rfl

/-- Bytes of characters that are not ASCII are not ASCII. -/
theorem le_of_mem_utf8EncodeChar (h : 128 ≤ c.toNat) (hb : b ∈ String.utf8EncodeChar c) : 128 ≤ b.toNat := by
  have hlow : ¬ c.val.toNat ≤ 127 := Nat.not_le.2 h
  simp only [String.utf8EncodeChar, if_neg hlow] at hb
  split at hb
  · simp only [List.mem_cons, List.not_mem_nil, or_false] at hb
    rcases hb with rfl | rfl <;> rw [UInt8.toNat_ofNat'] <;> omega
  split at hb
  · simp only [List.mem_cons, List.not_mem_nil, or_false] at hb
    rcases hb with rfl | rfl | rfl <;> rw [UInt8.toNat_ofNat'] <;> omega
  · simp only [List.mem_cons, List.not_mem_nil, or_false] at hb
    rcases hb with rfl | rfl | rfl | rfl <;> rw [UInt8.toNat_ofNat'] <;> omega

theorem eq_of_lf_mem_utf8EncodeChar (h : Ascii.lf ∈ String.utf8EncodeChar c) : c = '\n' := by
  rcases Nat.lt_or_ge c.toNat 128 with hlt | hge
  · rw [utf8EncodeChar_of_lt hlt, List.mem_singleton] at h
    by_contra hne
    exact toUInt8_ne hlt hne (by decide) h.symm
  · exact absurd (le_of_mem_utf8EncodeChar hge h) (by decide)

theorem ofInt_eq (i : Int) : ofInt i = (Json.decimal i).flatMap String.utf8EncodeChar := by
  have hascii : ∀ c ∈ Json.decimal i, c.toNat < 128 := fun c hc => by
    rcases Json.eq_or_isDigit_of_mem_decimal hc with rfl | hdigit
    · decide
    · obtain ⟨-, hhigh, hval⟩ := toNat_digit hdigit
      omega
  rw [flatMap_utf8EncodeChar_of_lt hascii]
  cases i <;> rfl

end Bytes

/-! ## Messages -/

namespace Log.Record

open Bytes
open Json (quote backslash closeBrace openBrace isPlain)

variable {c : Char}

/-- A character of a message inside a JSON string. -/
def escapeChar (c : Char) : List Char :=
  if c = quote then [backslash, quote]
  else if c = backslash then [backslash, backslash]
  else if c = '\n' then [backslash, 'n']
  else if c = '\r' then [backslash, 'r']
  else if c = '\t' then [backslash, 't']
  else [c]

/-- A character that is written in a way that JSON has for it. -/
def isWritable (c : Char) : Bool := 32 ≤ c.toNat || c == '\n' || c == '\r' || c == '\t'

theorem escapeByte_of_ne {b : UInt8} (hquote : b ≠ Ascii.quote) (hbackslash : b ≠ Ascii.backslash)
    (hlf : b ≠ Ascii.lf) (hcr : b ≠ Ascii.cr) (htab : b ≠ Ascii.tab) : escapeByte b = [b] := by
  rw [escapeByte, if_neg hquote, if_neg hbackslash, if_neg hlf, if_neg hcr, if_neg htab]

/-- The ways in which a character is written. -/
theorem escapeChar_cases {P : Char → List Char → Prop} (hquote : P quote [backslash, quote])
    (hbackslash : P backslash [backslash, backslash]) (hlf : P '\n' [backslash, 'n'])
    (hcr : P '\r' [backslash, 'r']) (htab : P '\t' [backslash, 't'])
    (hother : ∀ c, c ≠ quote → c ≠ backslash → c ≠ '\n' → c ≠ '\r' → c ≠ '\t' → P c [c]) (c : Char) :
    P c (escapeChar c) := by
  rw [escapeChar]
  split
  · next h => exact h ▸ hquote
  split
  · next h => exact h ▸ hbackslash
  split
  · next h => exact h ▸ hlf
  split
  · next h => exact h ▸ hcr
  split
  · next h => exact h ▸ htab
  · next h₁ h₂ h₃ h₄ h₅ => exact hother c h₁ h₂ h₃ h₄ h₅

/-- Escaping the bytes of a character is escaping the character. -/
theorem flatMap_escapeByte (c : Char) :
    (String.utf8EncodeChar c).flatMap escapeByte = (escapeChar c).flatMap String.utf8EncodeChar := by
  refine escapeChar_cases (P := fun c e => (String.utf8EncodeChar c).flatMap escapeByte =
    e.flatMap String.utf8EncodeChar) rfl rfl rfl rfl rfl ?_ c
  intro c hquote hbackslash hlf hcr htab
  have hbytes : ∀ b ∈ String.utf8EncodeChar c, escapeByte b = [b] := by
    intro b hb
    rcases Nat.lt_or_ge c.toNat 128 with hlt | hge
    · rw [utf8EncodeChar_of_lt hlt, List.mem_singleton] at hb
      subst hb
      exact escapeByte_of_ne (toUInt8_ne hlt hquote (by decide)) (toUInt8_ne hlt hbackslash (by decide))
        (toUInt8_ne hlt hlf (by decide)) (toUInt8_ne hlt hcr (by decide)) (toUInt8_ne hlt htab (by decide))
    · have hbyte := le_of_mem_utf8EncodeChar hge hb
      have hne {x : UInt8} (hx : x.toNat < 128) : b ≠ x := by
        rintro rfl
        omega
      exact escapeByte_of_ne (hne (by decide)) (hne (by decide)) (hne (by decide)) (hne (by decide))
        (hne (by decide))
  rw [List.flatMap_singleton, List.flatMap_congr hbytes, List.flatMap_singleton']

theorem units?_escapeChar (c : Char) (s : List Char) : Json.units? (escapeChar c ++ s) =
    if isWritable c then (Json.units? s).map fun (t, rest) => (c.toNat :: t, rest) else none := by
  refine escapeChar_cases (P := fun c e => Json.units? (e ++ s) = if isWritable c then
    (Json.units? s).map fun (t, rest) => (c.toNat :: t, rest) else none) ?_ ?_ ?_ ?_ ?_ ?_ c
  · exact Json.units?_escape rfl s
  · exact Json.units?_escape rfl s
  · exact Json.units?_escape rfl s
  · exact Json.units?_escape rfl s
  · exact Json.units?_escape rfl s
  intro c hquote hbackslash hlf hcr htab
  have hwritable : isWritable c = true ↔ 32 ≤ c.toNat := by simp [isWritable, hlf, hcr, htab]
  rw [List.singleton_append]
  rcases Nat.lt_or_ge c.toNat 32 with hlt | hge
  · rw [Json.units?_control hlt, if_neg fun hc => Nat.not_le.2 hlt (hwritable.1 hc)]
  · rw [Json.units?_plain (Json.isPlain_iff.2 ⟨hge, hquote, hbackslash⟩), if_pos (hwritable.2 hge)]

/-- A message is not read if a control character stands in it as it is. -/
theorem string?_escapeChar (text s : List Char) : Json.string? (text.flatMap escapeChar ++ quote :: s) =
    if text.all isWritable then some (text.map Char.toNat, s) else none := by
  have hunits : Json.units? (text.flatMap escapeChar ++ quote :: s) =
      if text.all isWritable then some (text.map Char.toNat, s) else none := by
    induction text with
    | nil => exact (Json.units?_quote s).trans (if_pos (by simp)).symm
    | cons c text ih =>
      rw [List.flatMap_cons, List.append_assoc, units?_escapeChar, ih, List.all_cons]
      cases isWritable c with
      | true => cases text.all isWritable <;> rfl
      | false => rfl
  rw [Json.string?, hunits]
  split
  · rw [Option.map_some]
    dsimp only
    rw [Json.joinSurrogates_chars]
  · rfl

/-- The characters of a record as JSON. -/
def jsonChars (millis : Int) (level tag text : List Char) : List Char :=
  openBrace :: quote :: (['t', 's'] ++ quote :: ':' :: (Json.decimal millis ++ ',' ::
    (quote :: (['l', 'e', 'v', 'e', 'l'] ++ quote :: ':' :: (quote :: (level ++ quote :: ',' ::
    (quote :: (['m', 'o', 'd', 'u', 'l', 'e'] ++ quote :: ':' :: (quote :: (tag ++ quote :: ',' ::
    (quote :: (['m', 's', 'g'] ++ quote :: ':' ::
      (quote :: (text.flatMap escapeChar ++ [quote, closeBrace]))))))))))))))

/-- The members that they stand for. -/
def jsonMembers (millis : Int) (level tag text : List Nat) : List (List Nat × Json.Value) :=
  [(Json.codePoints "ts", .number millis 0), (Json.codePoints "level", .string level),
    (Json.codePoints "module", .string tag), (Json.codePoints "msg", .string text)]

theorem members?_jsonChars (n : Nat) (millis : Int) {level tag : List Char} (hlevel : level.all isPlain = true)
    (htag : tag.all isPlain = true) (text : List Char) :
    Json.members? (n + 5) (jsonChars millis level tag text).tail =
      if text.all isWritable then
        some (jsonMembers millis (level.map Char.toNat) (tag.map Char.toNat) (text.map Char.toNat), [])
      else none := by
  have hvalue : Json.value? (n + 1) (Json.skip (quote :: (text.flatMap escapeChar ++ [quote, closeBrace]))) =
      if text.all isWritable then some (.string (text.map Char.toNat), [closeBrace]) else none := by
    rw [Json.skip_cons rfl, Json.value?_quote, string?_escapeChar]
    split <;> rfl
  rw [jsonChars, List.tail_cons,
    Json.members?_more ['t', 's'] rfl (Json.value?_decimal (n + 3) millis _), Json.skip_cons rfl,
    Json.members?_more ['l', 'e', 'v', 'e', 'l'] rfl (Json.value?_string hlevel (n + 2) _),
    Json.skip_cons rfl,
    Json.members?_more ['m', 'o', 'd', 'u', 'l', 'e'] rfl (Json.value?_string htag (n + 1) _),
    Json.skip_cons rfl]
  by_cases htext : text.all isWritable = true
  · rw [if_pos htext] at hvalue ⊢
    rw [Json.members?_last ['m', 's', 'g'] rfl hvalue]
    rfl
  · rw [if_neg htext] at hvalue ⊢
    rw [Json.members?_none ['m', 's', 'g'] rfl hvalue]
    rfl

theorem denotes_jsonChars_iff (millis : Int) {level tag : List Char} (hlevel : level.all isPlain = true)
    (htag : tag.all isPlain = true) (text : List Char) (v : Json.Value) :
    Json.Denotes (jsonChars millis level tag text) v ↔ text.all isWritable = true ∧
      v = .object (jsonMembers millis (level.map Char.toNat) (tag.map Char.toNat) (text.map Char.toNat)) := by
  have hvalue (n : Nat) : Json.value? (n + 6) (Json.skip (jsonChars millis level tag text)) =
      (Json.members? (n + 5) (jsonChars millis level tag text).tail).map fun p => (.object p.1, p.2) := rfl
  have hmembers (n : Nat) := members?_jsonChars n millis hlevel htag text
  constructor
  · rintro ⟨n, rest, hread, -⟩
    have hmore := Json.value?_add hread 6
    rw [hvalue, hmembers] at hmore
    split at hmore
    · next htext =>
      cases hmore
      exact ⟨htext, rfl⟩
    · cases hmore
  · rintro ⟨htext, rfl⟩
    refine ⟨0 + 6, [], ?_, rfl⟩
    rw [hvalue, hmembers, if_pos htext]
    rfl

/-- The name of a level. -/
theorem exists_level_chars (l : Level) : ∃ name : List Char, name.all isPlain = true ∧
    name.flatMap String.utf8EncodeChar = l.text ∧ name.map Char.toNat = l.text.map UInt8.toNat := by
  cases l with
  | trace => exact ⟨['T', 'R', 'A', 'C', 'E'], rfl, rfl, rfl⟩
  | debug => exact ⟨['D', 'E', 'B', 'U', 'G'], rfl, rfl, rfl⟩
  | info => exact ⟨['I', 'N', 'F', 'O'], rfl, rfl, rfl⟩
  | warn => exact ⟨['W', 'A', 'R', 'N'], rfl, rfl, rfl⟩
  | error => exact ⟨['E', 'R', 'R', 'O', 'R'], rfl, rfl, rfl⟩
  | fatal => exact ⟨['F', 'A', 'T', 'A', 'L'], rfl, rfl, rfl⟩
  | off => exact ⟨['O', 'F', 'F'], rfl, rfl, rfl⟩

theorem json_eq (time : Time) {level : Level} {name : List Char}
    (hname : name.flatMap String.utf8EncodeChar = level.text) (tag text : String) :
    ({ level, tag, message := text } : Record).json time =
      ofString (String.ofList (jsonChars time.millis name tag.toList text.toList)) := by
  have hmessage : (ofString text).flatMap escapeByte =
      (text.toList.flatMap escapeChar).flatMap String.utf8EncodeChar := by
    rw [ofString_eq, List.flatMap_assoc, List.flatMap_assoc]
    exact List.flatMap_congr fun c _ => flatMap_escapeByte c
  rw [ofString_ofList, json, jsonChars, hmessage, ofInt_eq, ← hname, ofString_eq tag]
  simp only [List.flatMap_cons, List.flatMap_append, List.append_assoc]
  rfl

theorem lf_not_mem_escapeChar (c : Char) : '\n' ∉ escapeChar c := by
  refine escapeChar_cases (P := fun _ e => '\n' ∉ e) (by decide) (by decide) (by decide) (by decide)
    (by decide) ?_ c
  exact fun c _ _ hlf _ _ hmem => hlf (List.mem_singleton.1 hmem).symm

theorem lf_not_mem_jsonChars (millis : Int) {level tag : List Char} (hlevel : level.all isPlain = true)
    (htag : tag.all isPlain = true) (text : List Char) : '\n' ∉ jsonChars millis level tag text := by
  have hplain {cs : List Char} (hcs : cs.all isPlain = true) : '\n' ∉ cs := fun hlf =>
    absurd (List.all_eq_true.1 hcs _ hlf) (by decide)
  have hdecimal : '\n' ∉ Json.decimal millis := fun hlf =>
    absurd (Json.eq_or_isDigit_of_mem_decimal hlf) (by decide)
  have hmessage : '\n' ∉ text.flatMap escapeChar := fun hlf => by
    obtain ⟨c, -, hc⟩ := List.mem_flatMap.1 hlf
    exact lf_not_mem_escapeChar c hc
  simp only [jsonChars, List.mem_cons, List.mem_append, hdecimal, hmessage, hplain hlevel, hplain htag,
    List.not_mem_nil]
  decide

/-- A record with a plain tag is one line. It denotes the object that has the fields of the record and
nothing else, and it denotes nothing if the message has a control character that is not escaped. -/
theorem json_denotes_iff (time : Time) (level : Level) {tag : String} (htag : tag.toList.all isPlain = true)
    (text : String) : ∃ line : String,
      ({ level, tag, message := text } : Record).json time = ofString line ∧ Ascii.lf ∉ ofString line ∧
      ∀ v, Json.Denotes line.toList v ↔ text.toList.all isWritable = true ∧ v = .object [
        (Json.codePoints "ts", .number time.millis 0),
        (Json.codePoints "level", .string (level.text.map UInt8.toNat)),
        (Json.codePoints "module", .string (Json.codePoints tag)),
        (Json.codePoints "msg", .string (Json.codePoints text))] := by
  obtain ⟨name, hplain, hbytes, hcodes⟩ := exists_level_chars level
  refine ⟨_, json_eq time hbytes tag text, ?_, fun v => ?_⟩
  · rw [ofString_ofList]
    intro hlf
    obtain ⟨c, hc, hmem⟩ := List.mem_flatMap.1 hlf
    exact lf_not_mem_jsonChars time.millis hplain htag text.toList (eq_of_lf_mem_utf8EncodeChar hmem ▸ hc)
  · rw [String.toList_ofList, denotes_jsonChars_iff time.millis hplain htag, hcodes]
    rfl

/-- A message with escapes and characters of all lengths, and one with a control character that stands in
the line as it is. -/
theorem json_denotes_cache : "cache".toList.all isPlain = true ∧
    (∃ line : String,
      ({ level := .warn, tag := "cache", message := "a\"\\é☃😀\t\n" } : Record).json ⟨[], -1⟩ = ofString line ∧
        Json.Denotes line.toList (.object [
          (Json.codePoints "ts", .number (-1) 0),
          (Json.codePoints "level", .string (Json.codePoints "WARN")),
          (Json.codePoints "module", .string (Json.codePoints "cache")),
          (Json.codePoints "msg", .string [97, 34, 92, 0xE9, 0x2603, 0x1F600, 9, 10])])) ∧
    ∃ line : String,
      ({ level := .info, tag := "cache", message := "\x01" } : Record).json ⟨[], 0⟩ = ofString line ∧
        ∀ v, ¬ Json.Denotes line.toList v := by
  have htag : "cache".toList.all isPlain = true := rfl
  obtain ⟨line, hline, -, hread⟩ := json_denotes_iff ⟨[], -1⟩ .warn htag "a\"\\é☃😀\t\n"
  obtain ⟨line', hline', -, hread'⟩ := json_denotes_iff ⟨[], 0⟩ .info htag "\x01"
  refine ⟨htag, ⟨line, hline, (hread _).2 ⟨rfl, rfl⟩⟩, line', hline', fun v h => ?_⟩
  exact absurd ((hread' v).1 h).1 (by decide)

end Log.Record

end ViewCompiler
