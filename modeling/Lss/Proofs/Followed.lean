import Lss.Proofs.Denoted
import Lss.Proofs.Vocabulary

/-!
# Lowering from two pools

What lowering gives depends on a pool only by the places of names. From pools with other names or
another order it succeeds just the same, as long as all names fit, with code that is alike; and
afterwards each pool has no names but its own and those of the other.
-/
namespace Lss

/-- From `p` and `q` two runs came to `p'` and `q'`: each only added names, and none that the other
has not. -/
structure Pool.Together (p q p' q' : Pool) : Prop where
  left : p'.Sound
  right : q'.Sound
  extendsLeft : p.Extends p'
  extendsRight : q.Extends q'
  within : ∀ V, q.Within V → p'.Within V → q'.Within V
  back : ∀ V, p.Within V → q'.Within V → p'.Within V

namespace Pool

variable {p q p' q' p'' q'' : Pool}

theorem Together.refl (hp : p.Sound) (hq : q.Sound) : Together p q p q :=
  ⟨hp, hq, .refl p, .refl q, fun _ h _ => h, fun _ h _ => h⟩

theorem Together.trans (h : Together p q p' q') (k : Together p' q' p'' q'') :
    Together p q p'' q'' where
  left := k.left
  right := k.right
  extendsLeft := h.extendsLeft.trans k.extendsLeft
  extendsRight := h.extendsRight.trans k.extendsRight
  within := fun V hq hp =>
    k.within V (h.within V hq (k.extendsLeft.within hp)) hp
  back := fun V hp hq =>
    k.back V (h.back V hp (k.extendsRight.within hq)) hq

end Pool

namespace Lower

variable {α β γ δ : Type} {p q : Pool} {R S : Pool → Pool → α → β → Prop}

/-- If `f` succeeds from `p`, then `g` succeeds from `q` unless there are too many names; and where
both succeed, their results are as `R` says of the pools that they leave. -/
def Follows (p q : Pool) (f : Lower α) (g : Lower β) (R : Pool → Pool → α → β → Prop) : Prop :=
  p.Sound → q.Sound → ∀ a p', f.run.run p = (.ok a, p') →
    (∀ V : Vocabulary, V.Small → p'.Within V → q.Within V → ∃ b q', g.run.run q = (.ok b, q')) ∧
      ∀ b q', g.run.run q = (.ok b, q') → Pool.Together p q p' q' ∧ R p' q' a b

/-- What a computation that succeeded has the other one do. -/
theorem Follows.run {f : Lower α} {g : Lower β} (h : Follows p q f g R) (hp : p.Sound)
    (hq : q.Sound) {a : α} {p' : Pool} (hf : f.run.run p = (.ok a, p')) {V : Vocabulary}
    (hV : V.Small) (hp' : p'.Within V) (hqV : q.Within V) :
    ∃ b q', g.run.run q = (.ok b, q') ∧ Pool.Together p q p' q' ∧ q'.Within V ∧ R p' q' a b := by
  obtain ⟨hok, hres⟩ := h hp hq a p' hf
  obtain ⟨b, q', hg⟩ := hok V hV hp' hqV
  obtain ⟨htogether, hr⟩ := hres b q' hg
  exact ⟨b, q', hg, htogether, htogether.within V hqV hp', hr⟩

/-- What two computations that succeeded have in common. -/
theorem Follows.both {f : Lower α} {g : Lower β} (h : Follows p q f g R) (hp : p.Sound)
    (hq : q.Sound) {a : α} {b : β} {p' q' : Pool} (hf : f.run.run p = (.ok a, p'))
    (hg : g.run.run q = (.ok b, q')) : Pool.Together p q p' q' ∧ R p' q' a b :=
  (h hp hq a p' hf).2 b q' hg

theorem Follows.pure {a : α} {b : β} (h : R p q a b) : Follows p q (pure a) (pure b) R := by
  intro hp hq _ _ ha
  cases ha
  refine ⟨fun _ _ _ _ => ⟨b, q, rfl⟩, fun _ _ hb => ?_⟩
  cases hb
  exact ⟨.refl hp hq, h⟩

theorem Follows.throw {e : CompileError} {g : Lower β} :
    Follows p q (throw e : Lower α) g R := by
  intro _ _ _ _ ha
  cases ha

theorem Follows.bind {f : Lower α} {g : Lower β} {f' : α → Lower γ} {g' : β → Lower δ}
    {S : Pool → Pool → γ → δ → Prop} (hf : Follows p q f g R) (hi : ∀ a, Interning (f' a))
    (hk : ∀ p' q' a b, p.Extends p' → q.Extends q' → R p' q' a b →
      Follows p' q' (f' a) (g' b) S) : Follows p q (f >>= f') (g >>= g') S := by
  intro hp hq c p'' hc
  obtain ⟨a, p', ha, hc⟩ := run_bind_eq_ok.mp hc
  obtain ⟨hok, hres⟩ := hf hp hq a p' ha
  -- a run of `g` leads to a pool from which `g'` follows `f'`
  have hnext (b : β) (q' : Pool) (hb : g.run.run q = (.ok b, q')) :
      Pool.Together p q p' q' ∧
        (∀ V : Vocabulary, V.Small → p''.Within V → q'.Within V →
          ∃ d q'', (g' b).run.run q' = (.ok d, q'')) ∧
        ∀ d q'', (g' b).run.run q' = (.ok d, q'') → Pool.Together p' q' p'' q'' ∧
          S p'' q'' c d := by
    obtain ⟨htogether, hr⟩ := hres b q' hb
    refine ⟨htogether, ?_⟩
    exact hk p' q' a b htogether.extendsLeft htogether.extendsRight hr htogether.left
      htogether.right c p'' hc
  constructor
  · intro V hV hp'' hqV
    have hp' := ((hi a).of_run hc).extends.within hp''
    obtain ⟨b, q', hb⟩ := hok V hV hp' hqV
    obtain ⟨htogether, hok', -⟩ := hnext b q' hb
    obtain ⟨d, q'', hd⟩ := hok' V hV hp'' (htogether.within V hqV hp')
    exact ⟨d, q'', run_bind_eq_ok.mpr ⟨b, q', hb, hd⟩⟩
  · intro d q'' hd
    obtain ⟨b, q', hb, hd⟩ := run_bind_eq_ok.mp hd
    obtain ⟨htogether, -, hres'⟩ := hnext b q' hb
    obtain ⟨htogether', hs⟩ := hres' d q'' hd
    exact ⟨htogether.trans htogether', hs⟩

theorem Follows.symbol (name : String) :
    Follows p q (symbol name) (symbol name) SymbolId.Alike := by
  obtain ⟨strings, symbols, warnings⟩ := p
  obtain ⟨strings', symbols', warnings'⟩ := q
  intro hp hq a p' ha
  have ha : Lower.symbol name ⟨strings, symbols, warnings⟩ = (.ok a, p') := ha
  simp only [Lower.symbol] at ha
  split at ha
  · next i t hi =>
    cases ha
    have hleft := hp.symbols.interned hi
    constructor
    · intro V hV hp' hqV
      obtain ⟨j, u, hj⟩ :=
        hq.symbols.intern_isOk hV.symbols hqV.symbols (hp'.symbols hleft.mem)
      refine ⟨⟨j⟩, ⟨strings', u, warnings'⟩, ?_⟩
      show Lower.symbol name ⟨strings', symbols', warnings'⟩ = _
      simp only [Lower.symbol] at hj ⊢
      rw [hj]
    · intro b q' hb
      have hb : Lower.symbol name ⟨strings', symbols', warnings'⟩ = (.ok b, q') := hb
      simp only [Lower.symbol] at hb
      split at hb
      · next j u hj =>
        cases hb
        have hright := hq.symbols.interned hj
        refine ⟨⟨⟨hp.strings, hleft.sound⟩, ⟨hq.strings, hright.sound⟩, ⟨.refl _, hleft.extends_⟩,
          ⟨.refl _, hright.extends_⟩, fun V hqV hp' => ?_, fun V hpV hq' => ?_⟩, name, hleft.get,
          hright.get⟩
        · exact ⟨hqV.strings, hright.subset hqV.symbols (hp'.symbols hleft.mem)⟩
        · exact ⟨hpV.strings, hleft.subset hpV.symbols (hq'.symbols hright.mem)⟩
      · cases hb
  · cases ha

theorem Follows.string (value : String) :
    Follows p q (string value) (string value) StringId.Alike := by
  obtain ⟨strings, symbols, warnings⟩ := p
  obtain ⟨strings', symbols', warnings'⟩ := q
  intro hp hq a p' ha
  have ha : Lower.string value ⟨strings, symbols, warnings⟩ = (.ok a, p') := ha
  simp only [Lower.string] at ha
  split at ha
  · next i t hi =>
    cases ha
    have hleft := hp.strings.interned hi
    constructor
    · intro V hV hp' hqV
      obtain ⟨j, u, hj⟩ :=
        hq.strings.intern_isOk hV.strings hqV.strings (hp'.strings hleft.mem)
      refine ⟨⟨j⟩, ⟨u, symbols', warnings'⟩, ?_⟩
      show Lower.string value ⟨strings', symbols', warnings'⟩ = _
      simp only [Lower.string] at hj ⊢
      rw [hj]
    · intro b q' hb
      have hb : Lower.string value ⟨strings', symbols', warnings'⟩ = (.ok b, q') := hb
      simp only [Lower.string] at hb
      split at hb
      · next j u hj =>
        cases hb
        have hright := hq.strings.interned hj
        refine ⟨⟨⟨hleft.sound, hp.symbols⟩, ⟨hright.sound, hq.symbols⟩, ⟨hleft.extends_, .refl _⟩,
          ⟨hright.extends_, .refl _⟩, fun V hqV hp' => ?_, fun V hpV hq' => ?_⟩, value, hleft.get,
          hright.get⟩
        · exact ⟨hright.subset hqV.strings (hp'.strings hleft.mem), hqV.symbols⟩
        · exact ⟨hleft.subset hpV.strings (hq'.strings hright.mem), hpV.symbols⟩
      · cases hb
  · cases ha

/-- Warnings are no part of what is compared. -/
theorem Follows.warn (d e : Diagnostic) :
    Follows p q (warn d) (warn e) fun _ _ _ _ => True := by
  intro hp hq _ _ ha
  cases ha
  refine ⟨fun _ _ _ _ => ⟨(), _, rfl⟩, fun _ _ hb => ?_⟩
  cases hb
  exact ⟨⟨⟨hp.strings, hp.symbols⟩, ⟨hq.strings, hq.symbols⟩, ⟨.refl _, .refl _⟩,
    ⟨.refl _, .refl _⟩, fun _ h _ => ⟨h.strings, h.symbols⟩, fun _ h _ => ⟨h.strings, h.symbols⟩⟩,
    trivial⟩

end Lower

end Lss
