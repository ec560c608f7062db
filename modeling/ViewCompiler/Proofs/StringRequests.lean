import ViewCompiler.Proofs.ConstantTexts
import ViewCompiler.Proofs.Simulation

/-!
Requests for string constants. `Lower.Makes` reads off a run which constants it asks for, in order: all other
steps take no notice of the constants. Whatever happens between two requests, texts and places keep to each
other (`Pools`); one request keeps this (`Pools.string`), and so does a whole run (`Lower.Makes.pools`).
-/

namespace ViewCompiler.Code

/-- A text whose constant is asked for, and the constant that is given for it. -/
structure Request where
  text : Bytes
  constant : Operand
deriving DecidableEq, Repr, Inhabited

namespace Lower

variable {α β : Type} {x : Lower α} {f : α → Lower β} {s s' s'' : LowerState} {a : α} {b : β}

/-! ## Steps that take no notice -/

/-- Whichever string constants there are, the step does the same and leaves them as they are. -/
def Ignores (x : Lower α) : Prop := ∀ s strings,
  StateT.run x { s with strings } = (StateT.run x s).map fun (a, s') => (a, { s' with strings })

theorem Ignores.strings_eq (hx : Ignores x) (h : StateT.run x s = .ok (a, s')) : s'.strings = s.strings := by
  have hrun := hx s s.strings
  rw [h] at hrun
  exact congrArg (LowerState.strings ∘ Prod.snd) (Except.ok.inj hrun)

theorem ignores_pure (a : α) : Ignores (pure a : Lower α) := fun _ _ => rfl

theorem ignores_bound (o : Option α) : Ignores (bound o) := by
  cases o <;> exact fun _ _ => rfl

theorem ignores_modifyGet {g : LowerState → α × LowerState}
    (h : ∀ s strings, g { s with strings } = ((g s).1, { (g s).2 with strings })) :
    Ignores (modifyGet g : Lower α) :=
  fun s strings => congrArg Except.ok (h s strings)

/-! ## Runs -/

/-- The step, run from `s`, asks for these constants one after the other and ends with `a` in `s'`. -/
inductive Makes : {α : Type} → Lower α → LowerState → List Request → α → LowerState → Prop
  | ignores {α : Type} {x : Lower α} {s a s'} : Ignores x → StateT.run x s = .ok (a, s') →
    Makes x s [] a s'
  | string {text s o s'} : StateT.run (string text) s = .ok (o, s') →
    Makes (string text) s [⟨text, o⟩] o s'
  | bind {α β : Type} {x : Lower α} {f : α → Lower β} {s rs a s' rs' b s''} : Makes x s rs a s' →
    Makes (f a) s' rs' b s'' → Makes (x >>= f) s (rs ++ rs') b s''

theorem Makes.run {requests : List Request} (h : Makes x s requests a s') :
    StateT.run x s = .ok (a, s') := by
  induction h with
  | ignores _ hrun | string hrun => exact hrun
  | bind _ _ ihx ihf => exact run_bind_eq_ok.2 ⟨_, _, ihx, ihf⟩

end Lower

/-! ## Texts and places -/

/-- The string constants after some requests. Every text stands at one place, where its requests lead, and
no text stands there that was not asked for. -/
structure Pools (requests : List Request) (strings : List Bytes) : Prop where
  nodup : strings.Nodup
  given : ∀ r ∈ requests, ∃ i, strings[i]? = some r.text ∧ r.constant = .str i (r.text.length + 1)
  asked : ∀ text ∈ strings, ∃ r ∈ requests, r.text = text

namespace Pools

variable {requests : List Request} {strings : List Bytes}

theorem nil : Pools [] [] := ⟨.nil, by simp, by simp⟩

/-- A text that stands there already is given its place. -/
theorem again {text : Bytes} {i : Nat} (h : Pools requests strings) (hi : strings[i]? = some text) :
    Pools (requests ++ [⟨text, .str i (text.length + 1)⟩]) strings where
  nodup := h.nodup
  given := List.forall_mem_append.2 ⟨h.given, List.forall_mem_singleton.2 ⟨i, hi, rfl⟩⟩
  asked t ht := by
    obtain ⟨r, hr, htext⟩ := h.asked t ht
    exact ⟨r, List.mem_append_left _ hr, htext⟩

/-- A new text is placed at the end, and the others stay where they are. -/
theorem push {text : Bytes} (h : Pools requests strings) (htext : text ∉ strings) :
    Pools (requests ++ [⟨text, .str strings.length (text.length + 1)⟩]) (strings ++ [text]) where
  nodup := h.nodup.append (List.nodup_singleton text) (by simpa using htext)
  given := by
    refine List.forall_mem_append.2 ⟨fun r hr => ?_, List.forall_mem_singleton.2 ?_⟩
    · obtain ⟨i, hi, hr⟩ := h.given r hr
      refine ⟨i, ?_, hr⟩
      rw [List.getElem?_append_left (List.getElem?_eq_some_iff.1 hi).1, hi]
    · exact ⟨strings.length, by simp, rfl⟩
  asked := by
    refine List.forall_mem_append.2 ⟨fun t ht => ?_, List.forall_mem_singleton.2 ?_⟩
    · obtain ⟨r, hr, heq⟩ := h.asked t ht
      exact ⟨r, List.mem_append_left _ hr, heq⟩
    · exact ⟨_, List.mem_append_right _ (List.mem_singleton_self _), rfl⟩

/-- What one request does. -/
theorem string {text : Bytes} {o : Operand} {s s' : LowerState} (h : Pools requests s.strings)
    (hrun : StateT.run (Lower.string text) s = .ok (o, s')) :
    Pools (requests ++ [⟨text, o⟩]) s'.strings := by
  replace hrun := Except.ok.inj hrun
  dsimp only at hrun
  split at hrun
  · next i hi =>
    obtain ⟨rfl, rfl⟩ := Prod.mk.inj hrun
    obtain ⟨hlt, htext, -⟩ := List.findIdx?_eq_some_iff_getElem.1 hi
    refine h.again ?_
    rw [List.getElem?_eq_getElem hlt]
    simpa using htext
  · next hnone =>
    obtain ⟨rfl, rfl⟩ := Prod.mk.inj hrun
    have hnew : text ∉ s.strings := fun hmem => by simpa using List.findIdx?_eq_none_iff.1 hnone text hmem
    exact h.push hnew

/-- Two requests are given the same constant expression exactly if they are for the same text. -/
theorem text_eq_iff (h : Pools requests strings) {r r' : Request} (hr : r ∈ requests)
    (hr' : r' ∈ requests) : r.constant.text = r'.constant.text ↔ r.text = r'.text := by
  obtain ⟨i, hi, hconstant⟩ := h.given r hr
  obtain ⟨i', hi', hconstant'⟩ := h.given r' hr'
  rw [hconstant, hconstant']
  constructor
  · intro heq
    have hread := Read.run_str i (r.text.length + 1)
    rw [heq, Read.run_str] at hread
    obtain ⟨rfl, -⟩ := Operand.str.inj (Prod.mk.inj (Option.some.inj hread)).1
    exact Option.some.inj (hi.symm.trans hi')
  · intro heq
    obtain ⟨hlt, -⟩ := List.getElem?_eq_some_iff.1 hi
    obtain rfl : i = i' := (List.getElem?_inj hlt h.nodup).1 (by rw [hi, hi', heq])
    rw [heq]

/-- A place that any request leads to is one that these requests lead to. -/
theorem exists_request (h : Pools requests strings) {i : Nat} {text : Bytes}
    (hi : strings[i]? = some text) :
    ∃ r ∈ requests, r.text = text ∧ r.constant = .str i (text.length + 1) := by
  obtain ⟨r, hr, rfl⟩ := h.asked text (List.mem_of_getElem? hi)
  obtain ⟨j, hj, hconstant⟩ := h.given r hr
  obtain ⟨hlt, -⟩ := List.getElem?_eq_some_iff.1 hi
  obtain rfl : i = j := (List.getElem?_inj hlt h.nodup).1 (hi.trans hj.symm)
  exact ⟨r, hr, rfl, hconstant⟩

end Pools

/-- What a whole run does. -/
theorem Lower.Makes.pools {α : Type} {x : Lower α} {s s' : LowerState} {a : α}
    {before requests : List Request} (h : Makes x s requests a s') (hs : Pools before s.strings) :
    Pools (before ++ requests) s'.strings := by
  induction h generalizing before with
  | ignores hx hrun => rwa [List.append_nil, hx.strings_eq hrun]
  | string hrun => exact hs.string hrun
  | bind _ _ ihx ihf =>
    rw [← List.append_assoc]
    exact ihf (ihx hs)

end ViewCompiler.Code
