/-
Parsers that come to an end.  Their tape is a suffix of symbols of which only the last
is an end marker; they never read past it, and they return with symbols taken off or
with an error, as long as the tape is shorter than a bound.
-/
import Oikos.Lib.Notes

namespace Oikos

universe u

/-- From a tape that meets `P` and is shorter than `n`, a run returns an error, or it
takes at least `k` symbols off, leaves one, and returns what `G` says. -/
def Progress {τ ν α E : Type u} (whole : List τ) (P : List τ → Prop) (n k : Nat)
    (p : StateT (Tape τ ν) (Result E) α) (G : α → Prop) : Prop :=
  ∀ t : Tape τ ν, t.rest <:+ whole → t.rest ≠ [] → P t.rest → t.rest.length < n →
    (∃ e, p t = .error (.err e)) ∨
      ∃ a t', p t = .ok (a, t') ∧ t'.rest <:+ t.rest ∧ t'.rest ≠ [] ∧
        t'.rest.length + k ≤ t.rest.length ∧ G a

namespace Progress

variable {τ ν α β E : Type u} {whole : List τ} {P P' : List τ → Prop} {n n' k : Nat}
  {p : StateT (Tape τ ν) (Result E) α} {f : α → StateT (Tape τ ν) (Result E) β}
  {G G' : α → Prop} {H : β → Prop}

theorem pure {a : α} (h : G a) :
    Progress whole P n 0 (Pure.pure a : StateT (Tape τ ν) (Result E) α) G :=
  fun t _ hne _ _ => Or.inr ⟨a, t, rfl, List.suffix_rfl, hne, le_refl _, h⟩

theorem throw {e : E} :
    Progress whole P n k (fun _ => .error (.err e) : StateT (Tape τ ν) (Result E) α) G :=
  fun _ _ _ _ _ => Or.inl ⟨e, rfl⟩

/-- A tape with a symbol is not shorter than one. -/
theorem one (hn : n ≤ 1) : Progress whole P n k p G := by
  intro t _ hne _ hlt
  have := List.length_pos_iff.mpr hne
  omega

theorem mono (h : Progress whole P n k p G) (hn : n' ≤ n) : Progress whole P n' k p G :=
  fun t hwhole hne hP hlt => h t hwhole hne hP (hlt.trans_le hn)

theorem pre (h : Progress whole P' n k p G) (hP : ∀ rest, P rest → P' rest) :
    Progress whole P n k p G :=
  fun t hwhole hne hrest hlt => h t hwhole hne (hP t.rest hrest) hlt

theorem anywhere (h : Progress whole Anywhere n k p G) : Progress whole P n k p G :=
  h.pre fun _ _ => trivial

/-- What takes symbols off takes some or none. -/
theorem weaken (h : Progress whole P n k p G) : Progress whole P n 0 p G := by
  intro t hwhole hne hP hlt
  refine (h t hwhole hne hP hlt).imp id ?_
  rintro ⟨a, t', hrun, hsuffix, hne', hlen, ha⟩
  exact ⟨a, t', hrun, hsuffix, hne', by omega, ha⟩

/-- What the first part takes off the tape is no longer there for the second one. -/
theorem andThen {i j : Nat} (hp : Progress whole P n i p G)
    (hf : ∀ a, G a → Progress whole Anywhere (n - i) j (f a) H) :
    Progress whole P n (i + j) (p >>= f) H := by
  intro t hwhole hne hP hlt
  rcases hp t hwhole hne hP hlt with ⟨e, he⟩ | ⟨a, t', hrun, hsuffix, hne', hlen, ha⟩
  · exact Or.inl ⟨e, by change (p t >>= fun x => f x.1 x.2) = _; rw [he]; rfl⟩
  · have hbind : (p >>= f) t = f a t' := by
      change (p t >>= fun x => f x.1 x.2) = _
      rw [hrun]
      rfl
    rw [hbind]
    refine (hf a ha t' (hsuffix.trans hwhole) hne' trivial (by omega)).imp id ?_
    rintro ⟨b, t'', hrun', hsuffix', hne'', hlen', hb⟩
    exact ⟨b, t'', hrun', hsuffix'.trans hsuffix, hne'', by omega, hb⟩

/-- After a first part that takes a symbol off the tape is shorter. -/
theorem first (hp : Progress whole P n 1 p G)
    (hf : ∀ a, G a → Progress whole Anywhere (n - 1) 0 (f a) H) :
    Progress whole P n 1 (p >>= f) H :=
  andThen hp hf

theorem bind (hp : Progress whole P n 0 p G)
    (hf : ∀ a, G a → Progress whole Anywhere n k (f a) H) : Progress whole P n k (p >>= f) H :=
  zero_add k ▸ andThen hp hf

theorem peek {e : Stop E} {f : τ → StateT (Tape τ ν) (Result E) β}
    (h : ∀ x, Progress whole (NextIs x) n k (f x) H) :
    Progress whole P n k (Tape.peek e >>= f) H := by
  intro t hwhole hne _ hlt
  obtain ⟨x, rest, hrest⟩ := List.exists_cons_of_ne_nil hne
  have hbind : (Tape.peek e >>= f) t = f x t := by
    change (Tape.peek e t >>= fun y => f y.1 y.2) = _
    rw [Tape.peek, hrest]
    rfl
  rw [hbind]
  exact h x t hwhole hne (by rw [NextIs, hrest]; rfl) hlt

/-- A symbol other than an end marker is not the last. -/
theorem advance {e : Stop E} {x : τ} {f : τ → StateT (Tape τ ν) (Result E) β}
    (hx : ¬[x] <:+ whole) (h : Progress whole Anywhere (n - 1) 0 (f x) H) :
    Progress whole (NextIs x) n 1 (Tape.advance e >>= f) H := by
  intro t hwhole hne hnext hlt
  obtain ⟨y, rest, hrest⟩ := List.exists_cons_of_ne_nil hne
  rw [NextIs, hrest] at hnext
  obtain rfl : y = x := Option.some.inj hnext
  have hbind : (Tape.advance e >>= f) t = f y { t with rest := rest } := by
    change (Tape.advance e t >>= fun y => f y.1 y.2) = _
    rw [Tape.advance, hrest]
    rfl
  rw [hrest] at hwhole hlt ⊢
  have hne' : rest ≠ [] := fun hnil => hx (hnil ▸ hwhole)
  have htail : rest <:+ y :: rest := List.suffix_cons y rest
  rw [List.length_cons] at hlt
  rw [hbind]
  refine (h { t with rest := rest } (htail.trans hwhole) hne' trivial
    (by change rest.length < _; omega)).imp id ?_
  rintro ⟨b, t', hrun, hsuffix, hne'', hlen, hb⟩
  exact ⟨b, t', hrun, hsuffix.trans htail,
    hne'', by rw [List.length_cons]; exact Nat.succ_le_succ hlen, hb⟩

theorem note {m : ν} {f : PUnit → StateT (Tape τ ν) (Result E) β}
    (h : Progress whole P n k (f .unit) H) : Progress whole P n k (Tape.note m >>= f) H :=
  fun t hwhole hne hP hlt => h { t with notes := t.notes ++ [m] } hwhole hne hP hlt

end Progress

end Oikos
