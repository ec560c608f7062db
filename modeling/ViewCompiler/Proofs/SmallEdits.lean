import ViewCompiler.Proofs.Checksums
import ViewCompiler.Service

/-!
Small edits of a request. The high half of a fingerprint takes in each word by an injection
(`Fingerprint.high_absorb_inj`), so a word that differs leaves different high halves, and they stay
different whatever is taken in later. A request with one file changed, in its kind or within four bytes
of its path or its content, has another fingerprint and misses the cache
(`Service.misses_of_smallEdit`).
-/

namespace ViewCompiler

/-- One file changed in one respect. -/
inductive SourceFile.SmallEdit : SourceFile → SourceFile → Prop where
  | kind {path content : Bytes} {k k' : FileKind} : k ≠ k' →
    SmallEdit { path, content, kind := k } { path, content, kind := k' }
  | path {path path' content : Bytes} {kind : FileKind} : path.DifferWithin 4 path' →
    SmallEdit { path, content, kind } { path := path', content, kind }
  | content {path content content' : Bytes} {kind : FileKind} : content.DifferWithin 4 content' →
    SmallEdit { path, content, kind } { path, content := content', kind }

namespace Fingerprint

variable {f g : Fingerprint} {v w : UInt64} {s t : Bytes} {x y : SourceFile}

/-! ## Words -/

theorem toNat_rotate (x : UInt64) :
    (rotate x 23).toNat = 2 ^ 23 * (x.toNat % 2 ^ 41) + x.toNat / 2 ^ 41 := by
  have hx := x.toNat_lt
  have hhigh : (x <<< 23).toNat = 2 ^ 23 * (x.toNat % 2 ^ 41) := by
    rw [UInt64.toNat_shiftLeft]
    change x.toNat <<< 23 % 2 ^ 64 = _
    rw [Nat.shiftLeft_eq]
    omega
  have hlow : (x >>> (64 - 23)).toNat = x.toNat / 2 ^ 41 := by
    rw [UInt64.toNat_shiftRight]
    exact Nat.shiftRight_eq_div_pow _ 41
  rw [rotate, UInt64.toNat_or, hhigh, hlow]
  exact (Nat.two_pow_add_eq_or_of_lt (by omega) _).symm

theorem rotate_injective : Function.Injective (rotate · 23) := by
  intro x y h
  have hx := x.toNat_lt
  have hy := y.toNat_lt
  have hnat := congrArg UInt64.toNat h
  rw [toNat_rotate, toNat_rotate] at hnat
  exact UInt64.toNat_inj.1 (by omega)

/-- The multiplier is odd, so it has an inverse. -/
theorem mul_multiplier_injective : Function.Injective (· * multiplier) := by
  intro x y h
  have hinverse : multiplier * 0xF1DE83E19937733D = 1 := by decide
  dsimp only at h
  rw [← UInt64.mul_one x, ← UInt64.mul_one y, ← hinverse, ← UInt64.mul_assoc, ← UInt64.mul_assoc, h]

theorem high_absorb_inj :
    (f.absorb v).high = (g.absorb w).high ↔ f.high ^^^ v = g.high ^^^ w :=
  ⟨fun h => rotate_injective (mul_multiplier_injective h),
    fun h => congrArg (rotate · 23 * multiplier) h⟩

@[simp] theorem high_absorb_left_inj : (f.absorb w).high = (g.absorb w).high ↔ f.high = g.high := by
  rw [high_absorb_inj, UInt64.xor_left_inj]

@[simp] theorem high_absorb_right_inj : (f.absorb v).high = (f.absorb w).high ↔ v = w := by
  rw [high_absorb_inj, UInt64.xor_right_inj]

/-! ## Files -/

@[simp] theorem high_absorbText_left_inj :
    (f.absorbText t).high = (g.absorbText t).high ↔ f.high = g.high := by
  simp only [absorbText, high_absorb_left_inj]

theorem high_absorbText_ne (h : s.DifferWithin 4 t) : (f.absorbText s).high ≠ (f.absorbText t).high := by
  rw [absorbText, absorbText, h.length_eq, ne_eq, high_absorb_right_inj]
  exact fun heq => Checksum.crc32c_ne h (UInt32.toUInt64_inj.1 heq)

theorem kindWord_injective : Function.Injective kindWord := by
  intro k k' h
  cases k <;> cases k' <;> simp_all [kindWord]

/-- A file that is changed changes the high half. -/
theorem high_absorbFile_ne (h : x.SmallEdit y) (index : Nat) :
    (f.absorbFile x index).high ≠ (f.absorbFile y index).high := by
  cases h with
  | kind hkind =>
    simp only [absorbFile, ne_eq, high_absorbText_left_inj, high_absorb_right_inj]
    exact fun heq => hkind (kindWord_injective heq)
  | path hpath =>
    simp only [absorbFile, ne_eq, high_absorbText_left_inj]
    exact high_absorbText_ne hpath
  | content hcontent => exact high_absorbText_ne hcontent

/-- Files that follow do not undo it. -/
theorem high_absorbFiles_left_inj {index : Nat} {files : List SourceFile} :
    (f.absorbFiles index files).high = (g.absorbFiles index files).high ↔ f.high = g.high := by
  induction files generalizing f g index with
  | nil => rfl
  | cons file files ih =>
    rw [absorbFiles, absorbFiles, ih]
    simp only [absorbFile, high_absorbText_left_inj, high_absorb_left_inj]

theorem absorbFiles_append (f : Fingerprint) (index : Nat) (xs ys : List SourceFile) :
    f.absorbFiles index (xs ++ ys) = (f.absorbFiles index xs).absorbFiles (index + xs.length) ys := by
  induction xs generalizing f index with
  | nil => rfl
  | cons x xs ih =>
    rw [List.cons_append, absorbFiles, ih, absorbFiles, List.length_cons, Nat.add_assoc,
      Nat.add_comm 1]

theorem high_absorbFiles_ne (h : x.SmallEdit y) (index : Nat) (before behind : List SourceFile) :
    (f.absorbFiles index (before ++ x :: behind)).high ≠
      (f.absorbFiles index (before ++ y :: behind)).high := by
  rw [absorbFiles_append, absorbFiles_append, absorbFiles, absorbFiles, ne_eq,
    high_absorbFiles_left_inj]
  exact high_absorbFile_ne h _

theorem ofFiles_ne (h : x.SmallEdit y) (before behind : List SourceFile) :
    ofFiles (before ++ x :: behind) ≠ ofFiles (before ++ y :: behind) := by
  have hlength : (before ++ x :: behind).length = (before ++ y :: behind).length := by
    simp only [List.length_append, List.length_cons]
  intro heq
  rw [ofFiles, ofFiles, hlength] at heq
  exact high_absorbFiles_ne h 0 before behind (high_absorb_left_inj.1 (congrArg high heq))

end Fingerprint

namespace Service

/-- A request with one file changed a little has another fingerprint, and a service that remembers the
answer to the one does not give it for the other. -/
theorem misses_of_smallEdit {x y : SourceFile} (h : x.SmallEdit y) (before behind : List SourceFile) :
    Fingerprint.ofFiles (before ++ x :: behind) ≠ Fingerprint.ofFiles (before ++ y :: behind) ∧
      ∀ (s : Service) (assembly : Assembly),
        s.slot = some { key := .ofFiles (before ++ x :: behind), assembly } →
          s.lookup? (.ofFiles (before ++ y :: behind)) = none := by
  have hne := Fingerprint.ofFiles_ne h before behind
  refine ⟨hne, fun s assembly hslot => ?_⟩
  rw [lookup?, hslot, Option.bind_some, if_neg hne]

/-- Four bytes at the end of a page, and another file behind it. -/
theorem misses_of_smallEdit_page :
    let before : SourceFile := ⟨"Index.view", "<p>Home</p>", .template⟩
    let after : SourceFile := ⟨"Index.view", "<p>Home</b>", .template⟩
    let other : SourceFile := ⟨"Counter.il", "class Counter {}", .source⟩
    before.SmallEdit after ∧ Fingerprint.ofFiles [before, other] ≠ Fingerprint.ofFiles [after, other] ∧
      ∀ (s : Service) (assembly : Assembly), s.slot = some { key := .ofFiles [before, other], assembly } →
        s.lookup? (.ofFiles [after, other]) = none := by
  intro before after other
  have hedit : before.SmallEdit after :=
    .content ⟨"<p>Home", "</p>", "</b>", [], by decide, by decide, rfl, by decide, by decide⟩
  exact ⟨hedit, misses_of_smallEdit hedit [] [other]⟩

end Service

end ViewCompiler
