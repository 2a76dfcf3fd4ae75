import Mathlib.Data.List.Forall2

/-! Outcomes of computations. A computation of several steps succeeds when every step does,
and the steps are taken apart by these equivalences alone; it fails with what a step fails
with. -/
namespace AggFlatten.Outcome

variable {ε δ α β : Type}

theorem bind_eq_ok_iff {x : Except ε α} {f : α → Except ε β} {b : β} :
    x >>= f = .ok b ↔ ∃ a, x = .ok a ∧ f a = .ok b := by
  cases x with
  | error e => exact ⟨nofun, nofun⟩
  | ok a =>
    constructor
    · intro h
      exact ⟨a, rfl, h⟩
    · rintro ⟨a, same, h⟩
      cases same
      exact h

theorem bind_eq_error_iff {x : Except ε α} {f : α → Except ε β} {e : ε} :
    x >>= f = .error e ↔ x = .error e ∨ ∃ a, x = .ok a ∧ f a = .error e := by
  cases x with
  | error cause => simp [bind, Except.bind]
  | ok a => simp [bind, Except.bind]

theorem pure_eq_ok_iff {a b : α} : (pure a : Except ε α) = .ok b ↔ a = b :=
  Except.ok.injEq a b ▸ Iff.rfl

theorem map_eq_ok_iff {x : Except ε α} {f : α → β} {b : β} :
    x.map f = .ok b ↔ ∃ a, x = .ok a ∧ f a = b := by
  cases x with
  | error e => exact ⟨nofun, nofun⟩
  | ok a => simp [Except.map]

theorem map_eq_error_iff {x : Except ε α} {f : α → β} {e : ε} :
    x.map f = .error e ↔ x = .error e := by
  cases x <;> simp [Except.map]

theorem mapError_eq_ok_iff {x : Except ε α} {f : ε → δ} {a : α} :
    x.mapError f = .ok a ↔ x = .ok a := by
  cases x <;> simp [Except.mapError]

theorem mapError_eq_error_iff {x : Except ε α} {f : ε → δ} {d : δ} :
    x.mapError f = .error d ↔ ∃ e, x = .error e ∧ f e = d := by
  cases x <;> simp [Except.mapError]

theorem mapM_eq_ok_iff {f : α → Except ε β} {as : List α} {bs : List β} :
    as.mapM f = .ok bs ↔ List.Forall₂ (fun a b => f a = .ok b) as bs := by
  induction as generalizing bs with
  | nil =>
    rw [List.mapM_nil, List.forall₂_nil_left_iff]
    exact ⟨fun h => (Except.ok.inj h).symm, fun h => h ▸ rfl⟩
  | cons a as ih =>
    rw [List.mapM_cons, bind_eq_ok_iff, List.forall₂_cons_left_iff]
    constructor
    · rintro ⟨b, first, later⟩
      obtain ⟨more, rest, done⟩ := bind_eq_ok_iff.mp later
      exact ⟨b, more, first, ih.mp rest, (Except.ok.inj done).symm⟩
    · rintro ⟨b, more, first, rest, rfl⟩
      exact ⟨b, first, bind_eq_ok_iff.mpr ⟨more, ih.mpr rest, rfl⟩⟩

theorem exists_of_mapM_eq_error {f : α → Except ε β} {as : List α} {e : ε}
    (failed : as.mapM f = .error e) : ∃ a ∈ as, f a = .error e := by
  induction as with
  | nil => cases failed
  | cons a as ih =>
    rw [List.mapM_cons, bind_eq_error_iff] at failed
    rcases failed with first | ⟨b, _, later⟩
    · exact ⟨a, List.mem_cons_self, first⟩
    · rcases bind_eq_error_iff.mp later with rest | ⟨bs, _, impossible⟩
      · obtain ⟨a', member, found⟩ := ih rest
        exact ⟨a', List.mem_cons_of_mem _ member, found⟩
      · cases impossible

theorem exists_forall₂_iff {R : α → β → Prop} {as : List α} :
    (∃ bs, List.Forall₂ R as bs) ↔ ∀ a ∈ as, ∃ b, R a b := by
  induction as with
  | nil => simp
  | cons a as ih =>
    simp only [List.forall₂_cons_left_iff, List.forall_mem_cons, ← ih]
    constructor
    · rintro ⟨_, b, bs, first, rest, rfl⟩
      exact ⟨⟨b, first⟩, bs, rest⟩
    · rintro ⟨⟨b, first⟩, bs, rest⟩
      exact ⟨_, b, bs, first, rest, rfl⟩

theorem getElem?_of_forall₂ {R : α → β → Prop} {as : List α} {bs : List β}
    (related : List.Forall₂ R as bs) {i : Nat} {a : α} (found : as[i]? = some a) :
    ∃ b, bs[i]? = some b ∧ R a b := by
  induction related generalizing i with
  | nil => cases found
  | cons first _ ih =>
    cases i with
    | zero =>
      cases found
      exact ⟨_, rfl, first⟩
    | succ i => exact ih found

theorem exists_of_forall₂_right {R : α → β → Prop} {as : List α} {bs : List β}
    (related : List.Forall₂ R as bs) {b : β} (member : b ∈ bs) : ∃ a ∈ as, R a b := by
  induction related with
  | nil => cases member
  | cons first _ ih =>
    rcases List.mem_cons.mp member with rfl | later
    · exact ⟨_, List.mem_cons_self, first⟩
    · obtain ⟨a, among, found⟩ := ih later
      exact ⟨a, List.mem_cons_of_mem _ among, found⟩

/-- Nothing but such an error makes this fail. -/
def FailsWith (P : ε → Prop) (x : Except ε α) : Prop :=
  ∀ e, x = .error e → P e

namespace FailsWith

variable {P Q : ε → Prop} {x : Except ε α}

theorem ok (a : α) : FailsWith P (.ok a : Except ε α) := nofun

theorem mono (weaker : ∀ e, P e → Q e) (fails : FailsWith P x) : FailsWith Q x :=
  fun e failed => weaker e (fails e failed)

theorem bind {f : α → Except ε β} (first : FailsWith P x)
    (later : ∀ a, x = .ok a → FailsWith P (f a)) : FailsWith P (x >>= f) := by
  intro e failed
  rcases bind_eq_error_iff.mp failed with failed | ⟨a, done, failed⟩
  · exact first e failed
  · exact later a done e failed

theorem map (f : α → β) (fails : FailsWith P x) : FailsWith P (x.map f) :=
  fun e failed => fails e (map_eq_error_iff.mp failed)

theorem mapM {f : α → Except ε β} {as : List α} (each : ∀ a ∈ as, FailsWith P (f a)) :
    FailsWith P (as.mapM f) := by
  intro e failed
  obtain ⟨a, member, failed⟩ := exists_of_mapM_eq_error failed
  exact each a member e failed

end FailsWith

/-- Both fail with the same error, or neither fails. -/
def FailAlike (x : Except ε α) (y : Except ε β) : Prop :=
  ∀ e, x = .error e ↔ y = .error e

namespace FailAlike

variable {γ γ' : Type} {x : Except ε α} {y : Except ε β}

theorem refl (x : Except ε α) : FailAlike x x := fun _ => Iff.rfl

theorem ok (a : α) (b : β) : FailAlike (.ok a : Except ε α) (.ok b : Except ε β) :=
  fun _ => ⟨nofun, nofun⟩

theorem succeeds_iff (alike : FailAlike x y) : (∃ a, x = .ok a) ↔ ∃ b, y = .ok b := by
  cases x with
  | error e =>
    have failed := (alike e).mp rfl
    simp [failed]
  | ok a =>
    cases y with
    | error e => cases (alike e).mpr rfl
    | ok b => simp

theorem map (alike : FailAlike x y) (f : α → γ) (g : β → γ') : FailAlike (x.map f) (y.map g) := by
  intro e
  rw [map_eq_error_iff, map_eq_error_iff, alike e]

theorem mapError (alike : FailAlike x y) (f : ε → δ) : FailAlike (x.mapError f) (y.mapError f) := by
  intro d
  simp only [mapError_eq_error_iff, alike _]

theorem bind {f : α → Except ε γ} {g : β → Except ε γ'} (first : FailAlike x y)
    (later : ∀ a b, FailAlike (f a) (g b)) : FailAlike (x >>= f) (y >>= g) := by
  intro e
  cases x with
  | error cause =>
    have failed := (first cause).mp rfl
    rw [failed, bind_eq_error_iff, bind_eq_error_iff]
    simp
  | ok a =>
    cases y with
    | error cause => cases (first cause).mpr rfl
    | ok b => exact later a b e

/-- After a step that both have in common. -/
theorem bind_same {f : α → Except ε γ} {g : α → Except ε γ'}
    (later : ∀ a, FailAlike (f a) (g a)) : FailAlike (x >>= f) (x >>= g) := by
  intro e
  simp only [bind_eq_error_iff, later _ e]

theorem mapM {f : γ → Except ε α} {g : γ → Except ε β} (each : ∀ c, FailAlike (f c) (g c))
    (cs : List γ) : FailAlike (cs.mapM f) (cs.mapM g) := by
  induction cs with
  | nil => exact ok [] []
  | cons c cs ih =>
    rw [List.mapM_cons, List.mapM_cons]
    apply (each c).bind
    intro a b
    apply ih.bind
    intro as bs
    exact ok _ _

end FailAlike

end AggFlatten.Outcome
