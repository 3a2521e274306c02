import Std.Data.TreeMap
import Std.Data.TreeMap.Lemmas

/-!
# Results and maps

Steps of a computation that succeeds, and what a map holds after entries were added one by one: of
several with one key the last counts, or with `insertIfNew` the first.
-/
namespace Lss

section

variable {ε α β : Type}

theorem bind_ok {x : Except ε α} {f : α → Except ε β} {b : β} (h : x >>= f = .ok b) :
    ∃ a, x = .ok a ∧ f a = .ok b := by
  cases x with
  | error e => cases h
  | ok a => exact ⟨a, rfl, h⟩

theorem mapM_ok {f : α → Except ε β} {g : α → β} (hf : ∀ a b, f a = .ok b → b = g a)
    {l : List α} {r : List β} (h : l.mapM f = .ok r) : r = l.map g := by
  induction l generalizing r with
  | nil =>
    cases h
    rfl
  | cons a l ih =>
    rw [List.mapM_cons] at h
    obtain ⟨b, hb, h⟩ := bind_ok h
    obtain ⟨bs, hbs, h⟩ := bind_ok h
    cases h
    rw [hf a b hb, ih hbs, List.map_cons]

end

section

variable {κ β α : Type} [Ord κ] [Std.TransOrd κ] [Std.LawfulEqOrd κ] {f : α → κ} {g : α → β}
  {k : κ} {v : β}

/-- Nothing is found but what was added or was there. -/
theorem mem_of_foldl_insert {l : List α} {m : Std.TreeMap κ β}
    (h : (l.foldl (fun m a => m.insert (f a) (g a)) m)[k]? = some v) :
    m[k]? = some v ∨ ∃ a ∈ l, f a = k ∧ g a = v := by
  induction l generalizing m with
  | nil => exact Or.inl h
  | cons a l ih =>
    rcases ih h with h | ⟨b, hb, hkv⟩
    · rw [Std.TreeMap.getElem?_insert] at h
      split at h
      · next hc =>
        refine Or.inr ⟨a, List.mem_cons_self, Std.LawfulEqCmp.eq_of_compare hc, ?_⟩
        exact Option.some.inj h
      · exact Or.inl h
    · exact Or.inr ⟨b, List.mem_cons_of_mem a hb, hkv⟩

theorem mem_of_foldl_insertIfNew {l : List α} {m : Std.TreeMap κ β}
    (h : (l.foldl (fun m a => m.insertIfNew (f a) (g a)) m)[k]? = some v) :
    m[k]? = some v ∨ ∃ a ∈ l, f a = k ∧ g a = v := by
  induction l generalizing m with
  | nil => exact Or.inl h
  | cons a l ih =>
    rcases ih h with h | ⟨b, hb, hkv⟩
    · rw [Std.TreeMap.getElem?_insertIfNew] at h
      split at h
      · next hc =>
        refine Or.inr ⟨a, List.mem_cons_self, Std.LawfulEqCmp.eq_of_compare hc.1, ?_⟩
        exact Option.some.inj h
      · exact Or.inl h
    · exact Or.inr ⟨b, List.mem_cons_of_mem a hb, hkv⟩

/-- What was there is found, under its key or a later entry of that key. -/
theorem isSome_foldl_insert {l : List α} {m : Std.TreeMap κ β}
    (h : m[k]?.isSome ∨ ∃ a ∈ l, f a = k) :
    (l.foldl (fun m a => m.insert (f a) (g a)) m)[k]?.isSome := by
  induction l generalizing m with
  | nil =>
    rcases h with h | ⟨a, ha, -⟩
    · exact h
    · cases ha
  | cons a l ih =>
    refine ih ?_
    rw [Std.TreeMap.getElem?_insert]
    rcases h with h | ⟨b, hb, hk⟩
    · refine Or.inl ?_
      split
      · rfl
      · exact h
    · rcases List.mem_cons.mp hb with rfl | hb
      · exact Or.inl (by simp [hk])
      · exact Or.inr ⟨b, hb, hk⟩

theorem isSome_foldl_insertIfNew {l : List α} {m : Std.TreeMap κ β}
    (h : m[k]?.isSome ∨ ∃ a ∈ l, f a = k) :
    (l.foldl (fun m a => m.insertIfNew (f a) (g a)) m)[k]?.isSome := by
  induction l generalizing m with
  | nil =>
    rcases h with h | ⟨a, ha, -⟩
    · exact h
    · cases ha
  | cons a l ih =>
    refine ih ?_
    rw [Std.TreeMap.getElem?_insertIfNew]
    rcases h with h | ⟨b, hb, hk⟩
    · refine Or.inl ?_
      split
      · rfl
      · exact h
    · rcases List.mem_cons.mp hb with rfl | hb
      · refine Or.inl ?_
        split
        · rfl
        · next hn =>
          rw [hk] at hn
          simp only [Std.ReflCmp.compare_self, true_and, Decidable.not_not] at hn
          exact Std.TreeMap.mem_iff_isSome_getElem?.mp hn
      · exact Or.inr ⟨b, hb, hk⟩

end

/-- A number can be read off behind a stem. -/
theorem append_toString_injective (stem : String) :
    Function.Injective fun i : Nat => stem ++ toString i := by
  intro i j h
  have hlist := congrArg String.toList h
  simp only [String.toList_append, List.append_cancel_left_eq, Nat.toString_eq_ofList_toDigits,
    String.toList_ofList] at hlist
  rw [← Nat.ofDigitChars_ten_toDigits (n := i), hlist, Nat.ofDigitChars_ten_toDigits]

end Lss
