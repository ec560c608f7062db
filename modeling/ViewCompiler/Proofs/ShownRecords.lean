import Mathlib.Data.List.Induction
import Mathlib.Data.List.TakeWhile
import ViewCompiler.Log.Logger

/-!
Which records a logger shows once it is set up. A written filter gives a tag the level of the last entry
for it (`Log.Filter.lookup_parse`), and the level below which nothing is looked at hides nothing that the
filter shows (`Log.Filter.minLevel_le_levelOf`). Setting up a logger again keeps part of what was set
before it, so a configuration means what it says only if that part does not matter
(`Log.Logger.shows_init`).
-/

namespace ViewCompiler

theorem Bytes.not_mem_of_mem_splitOn {sep : UInt8} {s part : Bytes} (h : part ∈ s.splitOn sep) :
    sep ∉ part := by
  induction s generalizing part with
  | nil => simp_all [splitOn]
  | cons b s ih =>
    rw [splitOn, List.foldr_cons, ← splitOn] at h
    split at h
    · rcases List.mem_cons.1 h with rfl | h
      · exact List.not_mem_nil
      · exact ih h
    next hb =>
    split at h
    · cases List.mem_singleton.1 h
      simpa using Ne.symm hb
    · next first others hs =>
      rw [hs] at ih
      rcases List.mem_cons.1 h with rfl | h
      · exact fun hmem => (List.mem_cons.1 hmem).elim (Ne.symm hb) (ih List.mem_cons_self)
      · exact ih (List.mem_cons_of_mem _ h)

namespace Log

/-! ## Levels -/

namespace Level

variable {a b c : Level}

theorem rank_injective (h : a.rank = b.rank) : a = b := by
  cases a <;> cases b <;> simp_all [rank]

theorem le_iff : a ≤ b ↔ a.rank ≤ b.rank := Iff.rfl

theorem lt_iff : a < b ↔ a.rank < b.rank := Iff.rfl

theorem rank_le (a : Level) : a.rank ≤ 6 := by cases a <;> decide

def lower (a b : Level) : Level := if a < b then a else b

def higher (a b : Level) : Level := if a < b then b else a

theorem lower_le_iff : lower a b ≤ c ↔ a ≤ c ∨ b ≤ c := by
  rw [lower]
  split <;> simp only [le_iff, lt_iff] at * <;> omega

theorem higher_le_iff : higher a b ≤ c ↔ a ≤ c ∧ b ≤ c := by
  rw [higher]
  split <;> simp only [le_iff, lt_iff] at * <;> omega

theorem lower_eq_left_iff : lower a b = a ↔ a ≤ b := by
  rw [lower]
  split
  · next h => exact ⟨fun _ => Nat.le_of_lt h, fun _ => rfl⟩
  · next h =>
    have hle : b ≤ a := Nat.le_of_not_lt h
    exact ⟨fun heq => heq ▸ Nat.le_refl _, fun hab => rank_injective (Nat.le_antisymm hle hab)⟩

theorem lower_eq_right_iff : lower a b = b ↔ b ≤ a := by
  rw [lower]
  split
  · next h => exact ⟨fun heq => heq ▸ Nat.le_refl _, fun hle => absurd h (Nat.not_lt.2 hle)⟩
  · next h => exact ⟨fun _ => Nat.le_of_not_lt h, fun _ => rfl⟩

theorem higher_eq_left_iff : higher a b = a ↔ b ≤ a := by
  rw [higher]
  split
  · next h => exact ⟨fun heq => heq ▸ Nat.le_refl _, fun hle => absurd h (Nat.not_lt.2 hle)⟩
  · next h => exact ⟨fun _ => Nat.le_of_not_lt h, fun _ => rfl⟩

/-- Levels are told apart by the levels of records. -/
theorem eq_of_forall_le_iff (h : ∀ level < off, (a ≤ level ↔ b ≤ level)) : a = b := by
  have hoff : off.rank = 6 := rfl
  have ha := a.rank_le
  have hb := b.rank_le
  have hleft : a.rank < 6 → b.rank ≤ a.rank := fun hlt => (h a hlt).1 (Nat.le_refl _)
  have hright : b.rank < 6 → a.rank ≤ b.rank := fun hlt => (h b hlt).2 (Nat.le_refl _)
  exact rank_injective (by omega)

end Level

/-! ## Written filters -/

namespace Filter

/-- The level that an entry with an equality sign gives a tag. -/
def assigned (tag entry : Bytes) : Option Level :=
  if tag ++ [Ascii.equal] <+: entry then some (.parse (entry.drop (tag.length + 1))) else none

/-- The level that an entry gives a tag; one that is a tag alone gives it everything. -/
def named (tag entry : Bytes) : Option Level :=
  if Ascii.equal ∈ tag then none
  else if entry = tag ∧ tag ≠ [] then some .trace
  else assigned tag entry

/-- What the last entry that has it gives. -/
def last (read : Bytes → Option Level) (spec : Bytes) : Option Level :=
  (spec.splitOn Ascii.comma).reverse.findSome? read

/-- The level that a written filter gives a tag. -/
def levelIn (spec tag : Bytes) : Option Level := last (named tag) spec

/-- The default that a written filter names. -/
def defaultIn (spec : Bytes) : Option Level := last (assigned "*") spec

variable {tag entry level : Bytes} {f : Filter}

theorem assigned_of_not_mem (h : Ascii.equal ∉ entry) (tag : Bytes) : assigned tag entry = none := by
  refine if_neg fun hstart => h ?_
  exact hstart.subset (List.mem_append_right _ (List.mem_singleton_self _))

theorem takeWhile_ne_append {x : UInt8} {u : Bytes} (h : x ∉ u) (v : Bytes) :
    (u ++ x :: v).takeWhile (· ≠ x) = u := by
  have hu : ∀ b ∈ u, decide (b ≠ x) = true := fun b hb => decide_eq_true (ne_of_mem_of_not_mem hb h)
  rw [List.takeWhile_append_of_pos hu, List.takeWhile_cons_of_neg (by simp), List.append_nil]

theorem dropWhile_ne_append {x : UInt8} {u : Bytes} (h : x ∉ u) (v : Bytes) :
    (u ++ x :: v).dropWhile (· ≠ x) = x :: v := by
  have hu : ∀ b ∈ u, decide (b ≠ x) = true := fun b hb => decide_eq_true (ne_of_mem_of_not_mem hb h)
  rw [List.dropWhile_append_of_pos hu, List.dropWhile_cons_of_neg (by simp)]

/-- An entry is cut at its first equality sign. -/
theorem assigned_append (htag : Ascii.equal ∉ tag) (hentry : Ascii.equal ∉ entry) (level : Bytes) :
    assigned tag (entry ++ Ascii.equal :: level) =
      if tag = entry then some (.parse level) else none := by
  by_cases heq : tag = entry
  · subst heq
    rw [assigned, if_pos ⟨level, by simp⟩, if_pos rfl]
    simp
  · have hnot : ¬ tag ++ [Ascii.equal] <+: entry ++ Ascii.equal :: level := by
      rintro ⟨rest, hrest⟩
      have hcut := congrArg (List.takeWhile (· ≠ Ascii.equal)) hrest
      rw [List.append_assoc, List.singleton_append, takeWhile_ne_append htag,
        takeWhile_ne_append hentry] at hcut
      exact heq hcut
    rw [assigned, if_neg hnot, if_neg heq]

theorem lookup_cons (t : Bytes) (k : Level) (levels : List (Bytes × Level)) (tag : Bytes) :
    List.lookup tag ((t, k) :: levels) = if tag = t then some k else levels.lookup tag := by
  rw [List.lookup_cons]
  by_cases h : tag = t
  · rw [beq_iff_eq.2 h, if_pos h]
  · rw [beq_eq_false_iff_ne.2 h, if_neg h]

theorem lookup_setLevel (f : Filter) (t : Bytes) (k : Level) (tag : Bytes) :
    (f.setLevel t k).levels.lookup tag = if tag = t then some k else f.levels.lookup tag := by
  have hothers (h : tag ≠ t) (levels : List (Bytes × Level)) :
      (levels.filter (·.1 ≠ t)).lookup tag = levels.lookup tag := by
    induction levels with
    | nil => rfl
    | cons p levels ih =>
      obtain ⟨t', k'⟩ := p
      rw [List.filter_cons, lookup_cons]
      split
      · rw [lookup_cons, ih]
      · next ht =>
        have heq : t' = t := by simpa using ht
        rw [ih, if_neg (heq ▸ h)]
  rw [setLevel, lookup_cons]
  split
  · rfl
  · next h => exact hothers h _

theorem applyEntry_of_not_mem (h : Ascii.equal ∉ entry) (f : Filter) :
    f.applyEntry entry = if entry = [] then f else f.setLevel entry .trace := by
  have hdrop : entry.dropWhile (· ≠ Ascii.equal) = [] :=
    List.dropWhile_eq_nil_iff.2 fun b hb => decide_eq_true fun heq => h (heq ▸ hb)
  rw [applyEntry, hdrop]

theorem applyEntry_append (h : Ascii.equal ∉ entry) (level : Bytes) (f : Filter) :
    f.applyEntry (entry ++ Ascii.equal :: level) =
      if entry = "*" then { f with default := .parse level } else f.setLevel entry (.parse level) := by
  rw [applyEntry, dropWhile_ne_append h]
  dsimp only
  rw [takeWhile_ne_append h]

theorem default_applyEntry (f : Filter) (entry : Bytes) :
    (f.applyEntry entry).default = (assigned "*" entry).getD f.default := by
  by_cases h : Ascii.equal ∈ entry
  · obtain ⟨t, level, rfl, ht⟩ := List.eq_append_cons_of_mem h
    rw [applyEntry_append ht, assigned_append (by decide) ht]
    by_cases hstar : t = "*"
    · rw [if_pos hstar, if_pos hstar.symm]
      rfl
    · rw [if_neg hstar, if_neg (Ne.symm hstar)]
      rfl
  · rw [applyEntry_of_not_mem h, assigned_of_not_mem h]
    split <;> rfl

theorem lookup_applyEntry (f : Filter) (entry : Bytes) (htag : tag ≠ "*") :
    (f.applyEntry entry).levels.lookup tag = (named tag entry).or (f.levels.lookup tag) := by
  by_cases h : Ascii.equal ∈ entry
  · obtain ⟨t, level, rfl, ht⟩ := List.eq_append_cons_of_mem h
    have hnamed : named tag (t ++ Ascii.equal :: level) =
        if tag = t then some (.parse level) else none := by
      rw [named]
      split
      · next hmem =>
        have hne : tag ≠ t := fun heq => ht (heq ▸ hmem)
        rw [if_neg hne]
      · next hmem =>
        have hbare : ¬ (t ++ Ascii.equal :: level = tag ∧ tag ≠ []) :=
          fun hbare => hmem (hbare.1 ▸ h)
        rw [if_neg hbare, assigned_append hmem ht]
    rw [applyEntry_append ht, hnamed]
    by_cases hstar : t = "*"
    · rw [if_pos hstar, if_neg fun heq => htag (heq.trans hstar)]
      rfl
    · rw [if_neg hstar, lookup_setLevel]
      split <;> rfl
  · have hnamed : named tag entry = if entry = tag ∧ tag ≠ [] then some .trace else none := by
      rw [named, assigned_of_not_mem h]
      split
      · next hmem =>
        have hbare : ¬ (entry = tag ∧ tag ≠ []) := fun hbare => h (hbare.1 ▸ hmem)
        rw [if_neg hbare]
      · rfl
    rw [applyEntry_of_not_mem h, hnamed]
    by_cases hnil : entry = []
    · have hbare : ¬ (entry = tag ∧ tag ≠ []) := fun hbare => hbare.2 (hbare.1 ▸ hnil)
      rw [if_pos hnil, if_neg hbare]
      rfl
    · rw [if_neg hnil, lookup_setLevel]
      by_cases heq : tag = entry
      · rw [if_pos heq, if_pos ⟨heq.symm, heq ▸ hnil⟩]
        rfl
      · rw [if_neg heq, if_neg fun hbare => heq hbare.1.symm]
        rfl

/-- What each entry that names it sets anew is as the last of them says. -/
theorem foldl_applyEntry (view : Filter → Option Level) (read : Bytes → Option Level)
    (h : ∀ f entry, view (f.applyEntry entry) = (read entry).or (view f)) (entries : List Bytes)
    (f : Filter) :
    view (entries.foldl applyEntry f) = (entries.reverse.findSome? read).or (view f) := by
  induction entries using List.reverseRecOn with
  | nil => rfl
  | append_singleton entries entry ih =>
    rw [List.foldl_append, List.foldl_cons, List.foldl_nil, h, ih, List.reverse_append,
      List.reverse_singleton, List.singleton_append, List.findSome?_cons]
    cases read entry <;> rfl

theorem default_parse (f : Filter) (spec : Bytes) :
    (f.parse spec).default = (defaultIn spec).getD f.default := by
  have hstep (f : Filter) (entry : Bytes) :
      some (f.applyEntry entry).default = (assigned "*" entry).or (some f.default) := by
    rw [default_applyEntry, Option.or_some]
  have hfold := foldl_applyEntry (fun f => some f.default) (assigned "*") hstep
    (spec.splitOn Ascii.comma) { f with levels := [] }
  rw [Option.or_some] at hfold
  exact Option.some.inj hfold

/-- A tag has the level that the last entry for it gives. -/
theorem lookup_parse (f : Filter) (spec : Bytes) (htag : tag ≠ "*") :
    (f.parse spec).levels.lookup tag = levelIn spec tag := by
  have hfold := foldl_applyEntry (·.levels.lookup tag) (named tag)
    (fun f entry => lookup_applyEntry f entry htag) (spec.splitOn Ascii.comma) { f with levels := [] }
  rwa [List.lookup_nil, Option.or_none] at hfold

theorem foldl_le (levels : List (Bytes × Level)) (m : Level) :
    levels.foldl (fun m (_, l) => if l < m then l else m) m ≤ m := by
  induction levels generalizing m with
  | nil => exact Nat.le_refl _
  | cons p levels ih =>
    have hstep : (if p.2 < m then p.2 else m) ≤ m := Level.lower_le_iff.2 (.inr (Nat.le_refl _))
    exact Nat.le_trans (ih _) hstep

/-- No tag has a level below the lowest one. -/
theorem minLevel_le_levelOf (f : Filter) (tag : Bytes) : f.minLevel ≤ f.levelOf tag := by
  suffices h : ∀ (levels : List (Bytes × Level)) (m : Level),
      levels.foldl (fun m (_, l) => if l < m then l else m) m ≤ (levels.lookup tag).getD m from
    h f.levels f.default
  intro levels
  induction levels with
  | nil => exact fun _ => Nat.le_refl _
  | cons p levels ih =>
    intro m
    obtain ⟨t, k⟩ := p
    rw [List.foldl_cons, lookup_cons]
    have hlower (a : Level) (ha : k ≤ a ∨ m ≤ a) : (if k < m then k else m) ≤ a :=
      Level.lower_le_iff.2 ha
    by_cases htag : tag = t
    · rw [if_pos htag]
      exact Nat.le_trans (foldl_le levels _) (hlower k (.inl (Nat.le_refl _)))
    · rw [if_neg htag]
      refine Nat.le_trans (ih _) ?_
      cases levels.lookup tag with
      | none => exact hlower m (.inr (Nat.le_refl _))
      | some k' => exact Nat.le_refl _

/-! ## Tags without a level -/

theorem levelIn_nil (tag : Bytes) : levelIn [] tag = none := by
  have hnil : named tag [] = none := by
    rw [named]
    split
    · rfl
    · rw [if_neg fun h => h.2 h.1.symm]
      exact assigned_of_not_mem List.not_mem_nil tag
  exact (List.findSome?_cons).trans (by rw [hnil]; rfl)

theorem defaultIn_nil : defaultIn [] = none := by decide

/-- No entry is for a tag with a comma in it. -/
theorem levelIn_comma (spec : Bytes) : levelIn spec "," = none := by
  rw [levelIn, last, List.findSome?_eq_none_iff]
  intro entry hentry
  have hcomma := Bytes.not_mem_of_mem_splitOn (List.mem_reverse.1 hentry)
  have hbare : ¬ (entry = "," ∧ Bytes.ofString "," ≠ []) := by
    rintro ⟨rfl, -⟩
    exact hcomma (by decide)
  have hstart : ¬ Bytes.ofString "," ++ [Ascii.equal] <+: entry :=
    fun h => hcomma (h.subset (by decide))
  rw [named, if_neg (by decide), if_neg hbare, assigned, if_neg hstart]

end Filter

/-! ## Settings -/

/-- What changes the levels of a logger. -/
inductive Setting where
  | init (c : Config)
  | level (l : Level)
  | filter (spec : Bytes)
deriving DecidableEq, Repr

namespace Setting

/-- The written filter that a setting reads. -/
def spec? : Setting → Option Bytes
  | init c => if c.filter = [] then none else some c.filter
  | level _ => none
  | filter spec => some spec

/-- The default level behind a setting, if it was `before` in front of it. -/
def defaultAfter (before : Level) : Setting → Level
  | init c =>
    if c.filter = [] then c.level else .lower c.level ((Filter.defaultIn c.filter).getD before)
  | level l => l
  | filter spec => (Filter.defaultIn spec).getD before

/-- The filter that was read last; there may be none. -/
def lastSpec (settings : List Setting) : Bytes := (settings.reverse.findSome? spec?).getD []

/-- The default level of a process that started with warnings. -/
def lastDefault (settings : List Setting) : Level := settings.foldl defaultAfter .warn

end Setting

namespace Logger

def set (l : Logger) : Setting → Logger
  | .init c => l.init c
  | .level level => l.setLevel level
  | .filter spec => l.setFilter spec

def setAll (l : Logger) (settings : List Setting) : Logger := settings.foldl set l

/-- The levels that a logger has are those of the filter it read last and a default. -/
structure Keeps (l : Logger) (spec : Bytes) (d : Level) : Prop where
  default_eq : l.filter.default = d
  lookup_eq : ∀ tag : Bytes, tag ≠ "*" → l.filter.levels.lookup tag = Filter.levelIn spec tag

variable {l : Logger} {c : Config} {spec tag : Bytes} {d level : Level}

/-- The sinks do not matter for the levels. -/
theorem init_levels (l : Logger) (c : Config) : (l.init c).level = (l.configureLevels c).level ∧
    (l.init c).filter = (l.configureLevels c).filter := by
  have hclear : (l.clearSinks.configureLevels c).level = (l.configureLevels c).level ∧
      (l.clearSinks.configureLevels c).filter = (l.configureLevels c).filter := by
    simp only [configureLevels, clearSinks]
    split <;> exact ⟨rfl, rfl⟩
  have hconsole (s : Sink) : (if c.console then (l.clearSinks.configureLevels c).addSink s
      else l.clearSinks.configureLevels c).level = (l.configureLevels c).level ∧
      (if c.console then (l.clearSinks.configureLevels c).addSink s
        else l.clearSinks.configureLevels c).filter = (l.configureLevels c).filter := by
    split <;> exact hclear
  simp only [init]
  split
  · exact hconsole _
  split
  · exact hconsole _
  · exact hconsole _

theorem default_configureLevels (l : Logger) (c : Config) :
    (l.configureLevels c).filter.default = Setting.defaultAfter l.filter.default (.init c) := by
  rw [configureLevels, Setting.defaultAfter]
  split
  · rfl
  · dsimp only
    rw [← Filter.default_parse, Level.lower]
    split <;> rfl

theorem lookup_configureLevels (htag : tag ≠ "*") :
    (l.configureLevels c).filter.levels.lookup tag =
      if c.filter = [] then l.filter.levels.lookup tag else Filter.levelIn c.filter tag := by
  rw [configureLevels]
  split
  · rfl
  · rw [← Filter.lookup_parse l.filter c.filter htag]
    dsimp only
    split <;> rfl

theorem Keeps.fresh (terminal : Option Terminal) (files : Files) :
    (fresh terminal files).Keeps [] .warn :=
  ⟨rfl, fun tag _ => (Filter.levelIn_nil tag).symm⟩

theorem Keeps.set (h : l.Keeps spec d) (s : Setting) :
    (l.set s).Keeps (s.spec?.getD spec) (s.defaultAfter d) := by
  cases s with
  | init c =>
    refine ⟨?_, fun tag htag => ?_⟩
    · rw [Logger.set, (init_levels l c).2, default_configureLevels, h.default_eq]
    · rw [Logger.set, (init_levels l c).2, lookup_configureLevels htag, Setting.spec?]
      split
      · exact h.lookup_eq tag htag
      · rfl
  | level k => exact ⟨rfl, h.lookup_eq⟩
  | filter spec' =>
    refine ⟨?_, fun tag htag => Filter.lookup_parse l.filter spec' htag⟩
    exact (Filter.default_parse l.filter spec').trans (by rw [h.default_eq]; rfl)

/-- What a process has set up so far. -/
theorem keeps_setAll (terminal : Option Terminal) (files : Files) (settings : List Setting) :
    ((fresh terminal files).setAll settings).Keeps (Setting.lastSpec settings)
      (Setting.lastDefault settings) := by
  induction settings using List.reverseRecOn with
  | nil => exact .fresh terminal files
  | append_singleton settings s ih =>
    have hset := ih.set s
    rw [setAll, List.foldl_append, Setting.lastDefault, List.foldl_append, Setting.lastSpec,
      List.reverse_append, List.reverse_singleton, List.singleton_append, List.findSome?_cons]
    cases hs : s.spec? with
    | none => rw [hs] at hset; exact hset
    | some spec => rw [hs] at hset; exact hset

end Logger

/-! ## Configurations -/

namespace Config

/-- The level from which on a configuration means to show the records of a tag: that of the last entry
for it, or the default that the filter names, or the configured level. -/
def levelOf (c : Config) (tag : Bytes) : Level :=
  (Filter.levelIn c.filter tag).getD ((Filter.defaultIn c.filter).getD c.level)

/-- The level from which on they are shown behind other settings. Without a filter the levels of tags stay
as they were; with one the default stays, unless it is named or above the configured level. -/
def shownFrom (c : Config) (earlier : List Setting) (tag : Bytes) : Level :=
  if c.filter = [] then
    .higher c.level ((Filter.levelIn (Setting.lastSpec earlier) tag).getD c.level)
  else
    (Filter.levelIn c.filter tag).getD (Setting.defaultAfter (Setting.lastDefault earlier) (.init c))

/-- Nothing gets in the way: without a filter no tag is left with a level above the configured one; a
default that the filter names is not above it, and one that is left is not below it. -/
def Decides (c : Config) (earlier : List Setting) : Prop :=
  if c.filter = [] then
    ∀ tag : Bytes, tag ≠ "*" → ∀ k ∈ Filter.levelIn (Setting.lastSpec earlier) tag, k ≤ c.level
  else
    match Filter.defaultIn c.filter with
    | some k => k ≤ c.level
    | none => c.level ≤ Setting.lastDefault earlier

variable {c : Config} {tag : Bytes} {earlier : List Setting}

theorem shownFrom_of_none (hc : c.filter ≠ []) (htag : Filter.levelIn c.filter tag = none) :
    c.shownFrom earlier tag =
      .lower c.level ((Filter.defaultIn c.filter).getD (Setting.lastDefault earlier)) := by
  rw [shownFrom, if_neg hc, htag, Setting.defaultAfter, if_neg hc]
  rfl

theorem decides_iff :
    c.Decides earlier ↔ ∀ tag : Bytes, tag ≠ "*" → c.shownFrom earlier tag = c.levelOf tag := by
  by_cases hc : c.filter = []
  · have hlevel (tag : Bytes) : c.levelOf tag = c.level := by
      rw [levelOf, hc, Filter.levelIn_nil, Filter.defaultIn_nil]
      rfl
    rw [Decides, if_pos hc]
    refine forall₂_congr fun tag _ => ?_
    rw [shownFrom, if_pos hc, hlevel, Level.higher_eq_left_iff]
    cases Filter.levelIn (Setting.lastSpec earlier) tag with
    | none => exact iff_of_true (fun _ h => by cases h) (Nat.le_refl _)
    | some k => simp
  · -- a tag that the filter names has its level anyway, and there is always one that it does not name
    have hnone {tag : Bytes} (htag : Filter.levelIn c.filter tag = none) :
        c.Decides earlier ↔ c.shownFrom earlier tag = c.levelOf tag := by
      rw [Decides, if_neg hc, shownFrom_of_none hc htag, levelOf, htag]
      cases Filter.defaultIn c.filter with
      | none => exact Level.lower_eq_left_iff.symm
      | some k => exact Level.lower_eq_right_iff.symm
    constructor
    · intro h tag _
      cases htag : Filter.levelIn c.filter tag with
      | none => exact (hnone htag).1 h
      | some k => rw [shownFrom, if_neg hc, levelOf, htag]; rfl
    · intro h
      exact (hnone (Filter.levelIn_comma _)).2 (h "," (by decide))

end Config

namespace Logger

variable {l : Logger} {c : Config} {tag : Bytes} {earlier : List Setting}

theorem shouldLog_init_iff (h : l.Keeps (Setting.lastSpec earlier) (Setting.lastDefault earlier))
    (htag : tag ≠ "*") (level : Level) :
    (l.init c).shouldLog level tag = true ↔ c.shownFrom earlier tag ≤ level := by
  obtain ⟨hlevel, hfilter⟩ := init_levels l c
  have hof : (l.configureLevels c).filter.levelOf tag =
      (if c.filter = [] then Filter.levelIn (Setting.lastSpec earlier) tag
        else Filter.levelIn c.filter tag).getD
          (Setting.defaultAfter (Setting.lastDefault earlier) (.init c)) := by
    rw [Filter.levelOf, lookup_configureLevels htag, default_configureLevels, h.default_eq,
      h.lookup_eq tag htag]
  rw [shouldLog, hlevel, hfilter, Bool.and_eq_true, decide_eq_true_iff, Filter.shows,
    decide_eq_true_iff]
  by_cases hc : c.filter = []
  · have hfast : (l.configureLevels c).level = c.level := by rw [configureLevels, if_pos hc]
    rw [hfast, hof, if_pos hc, Setting.defaultAfter, if_pos hc, Config.shownFrom, if_pos hc,
      Level.higher_le_iff]
  · have hfast : (l.configureLevels c).level = (l.configureLevels c).filter.minLevel := by
      rw [configureLevels, if_neg hc]
    have hmin := (l.configureLevels c).filter.minLevel_le_levelOf tag
    rw [if_neg hc] at hof
    rw [Config.shownFrom, if_neg hc, ← hof, hfast]
    exact ⟨And.right, fun hle => ⟨Nat.le_trans hmin hle, hle⟩⟩

/-- Behind any settings a process shows the records of a tag from the level `Config.shownFrom` on. That is
the level that the configuration means, for all tags, if and only if nothing gets in the way. -/
theorem shows_init (terminal : Option Terminal) (files : Files) (earlier : List Setting) (c : Config) :
    let l := ((fresh terminal files).setAll earlier).init c
    (∀ (level : Level) (tag : Bytes), tag ≠ "*" →
      (l.shouldLog level tag = true ↔ c.shownFrom earlier tag ≤ level)) ∧
    ((∀ (level : Level) (tag : Bytes), level < .off → tag ≠ "*" →
      (l.shouldLog level tag = true ↔ c.levelOf tag ≤ level)) ↔ c.Decides earlier) := by
  intro l
  have hshown (level : Level) (tag : Bytes) (htag : tag ≠ "*") :
      l.shouldLog level tag = true ↔ c.shownFrom earlier tag ≤ level :=
    shouldLog_init_iff (keeps_setAll terminal files earlier) htag level
  refine ⟨hshown, ?_⟩
  rw [Config.decides_iff]
  constructor
  · intro h tag htag
    exact Level.eq_of_forall_le_iff fun level hlevel =>
      (hshown level tag htag).symm.trans (h level tag hlevel htag)
  · intro h level tag _ htag
    rw [hshown level tag htag, h tag htag]

/-- A filter without a default does not take the configured level for it. -/
theorem shows_init_error :
    let c : Config := { level := .error, filter := "cache=debug" }
    Bytes.ofString "link" ≠ "*" ∧ c.levelOf "link" = .error ∧
      (((fresh none {}).setAll []).init c).shouldLog .warn "link" = true := by
  intro c
  have htag : Bytes.ofString "link" ≠ "*" := by decide
  exact ⟨htag, by decide, ((shows_init none {} [] c).1 .warn "link" htag).2 (by decide)⟩

end Logger

end Log

end ViewCompiler
