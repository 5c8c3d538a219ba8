/-
What a parser consumes.  The state of a parser stands for the symbols that are
still to be read, in one of several ways; `Reads` says which symbols a parser
takes off the front, how its state stands for what is left, and how its result
is related to what it took.  `Accepts` is the converse: on these symbols the
parser returns this result.
-/
import Oikos.Lib.Run

namespace Oikos

universe u v

variable {σ τ : Type u} {ε : Type v} {α β : Type u}

/-- From a state that stands for some symbols by `E`, a successful run takes a
prefix related to its result by `G` and leaves a state that stands for the other
symbols by `F`. -/
def Reads (E : σ → List τ → Prop) (F : α → σ → List τ → Prop) (p : StateT σ (Except ε) α)
    (G : α → List τ → Prop) : Prop :=
  ∀ ⦃s ms a s'⦄, E s ms → p s = .ok (a, s') → ∃ ls rest, ms = ls ++ rest ∧ F a s' rest ∧ G a ls

namespace Reads

variable {E E' : σ → List τ → Prop} {F F' : α → σ → List τ → Prop} {H : β → σ → List τ → Prop}
  {p : StateT σ (Except ε) α} {f : α → StateT σ (Except ε) β} {G G' : α → List τ → Prop}
  {K : β → List τ → Prop}

theorem pure {a : α} (hF : ∀ s ms, E s ms → F a s ms) (hG : G a []) :
    Reads E F (pure a : StateT σ (Except ε) α) G := by
  intro s ms b s' hE h
  cases h
  exact ⟨[], ms, rfl, hF s ms hE, hG⟩

/-- Return without moving on. -/
theorem done {a : α} (hG : G a []) :
    Reads E (fun _ => E) (Pure.pure a : StateT σ (Except ε) α) G :=
  pure (fun _ _ h => h) hG

theorem bind (hp : Reads E F p G)
    (hf : ∀ a ls, G a ls → Reads (F a) H (f a) fun b more => K b (ls ++ more)) :
    Reads E H (p >>= f) K := by
  intro s ms b s' hE h
  obtain ⟨⟨a, s₁⟩, ha, hb⟩ := bind_eq_ok.mp h
  obtain ⟨ls, rest, rfl, hF, hG⟩ := hp hE ha
  obtain ⟨more, rest, rfl, hH, hK⟩ := hf a ls hG hF hb
  exact ⟨ls ++ more, rest, (List.append_assoc ls more rest).symm, hH, hK⟩

theorem pre (h : ∀ s ms, E s ms → E' s ms) (hp : Reads E' F p G) : Reads E F p G :=
  fun s ms _ _ hE => hp (h s ms hE)

theorem mono (h : ∀ a ls, G a ls → G' a ls) (hp : Reads E F p G) : Reads E F p G' := by
  intro s ms a s' hE hs
  obtain ⟨ls, rest, hms, hF, hG⟩ := hp hE hs
  exact ⟨ls, rest, hms, hF, h a ls hG⟩

end Reads

/-- From a state that stands for the symbols `ls` and `rest` after them by `E`, a
run returns `a` and leaves a state that stands for `rest` by `F`. -/
def Accepts (E F : σ → List τ → Prop) (p : StateT σ (Except ε) α) (a : α) (ls rest : List τ) :
    Prop :=
  ∀ s, E s (ls ++ rest) → ∃ s', p s = .ok (a, s') ∧ F s' rest

namespace Accepts

variable {E F F' H : σ → List τ → Prop} {p : StateT σ (Except ε) α}
  {f : α → StateT σ (Except ε) β} {a : α} {b : β} {ls more rest : List τ}

theorem pure : Accepts E E (Pure.pure a : StateT σ (Except ε) α) a [] rest :=
  fun s h => ⟨s, rfl, h⟩

theorem bind (hp : Accepts E F p a ls (more ++ rest)) (hf : Accepts F H (f a) b more rest) :
    Accepts E H (p >>= f) b (ls ++ more) rest := by
  intro s hs
  rw [List.append_assoc] at hs
  obtain ⟨s₁, hrun, hnext⟩ := hp s hs
  obtain ⟨s₂, hrun', hleft⟩ := hf s₁ hnext
  refine ⟨s₂, ?_, hleft⟩
  exact bind_eq_ok.mpr ⟨(a, s₁), hrun, hrun'⟩

theorem last (hp : Accepts E F p a ls rest) (hf : Accepts F H (f a) b [] rest) :
    Accepts E H (p >>= f) b ls rest := by
  have hboth : Accepts E H (p >>= f) b (ls ++ []) rest := bind hp hf
  rw [List.append_nil] at hboth
  exact hboth

theorem post (hp : Accepts E F p a ls rest) (h : ∀ s, F s rest → F' s rest) :
    Accepts E F' p a ls rest := by
  intro s hs
  obtain ⟨s', hrun, hleft⟩ := hp s hs
  exact ⟨s', hrun, h s' hleft⟩

end Accepts

/-- Parts that stand for values one by one, with separators between them. -/
inductive SepBy (sep : τ → Prop) (G : α → List τ → Prop) : List α → List τ → Prop
  | one {a ls} : G a ls → SepBy sep G [a] ls
  | cons {a ls m as ms} : G a ls → sep m → SepBy sep G as ms → SepBy sep G (a :: as) (ls ++ m :: ms)

end Oikos
