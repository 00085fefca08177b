/-!
# How computations end

What is known of the parts when a composed computation ends. If it ends well, so did every part; if
it ends in an error, that is the error of a part.
-/

namespace Ancestry.Outcome

variable {ε α β : Type}

theorem bind_eq_ok {x : Except ε α} {f : α → Except ε β} {b : β} :
    (x >>= f) = .ok b ↔ ∃ a, x = .ok a ∧ f a = .ok b := by
  cases x <;> simp [bind, Except.bind]

theorem map_eq_ok {x : Except ε α} {f : α → β} {b : β} :
    x.map f = .ok b ↔ ∃ a, x = .ok a ∧ f a = b := by
  cases x <;> simp [Except.map]

theorem bind_eq_error {x : Except ε α} {f : α → Except ε β} {e : ε} :
    (x >>= f) = .error e ↔ x = .error e ∨ ∃ a, x = .ok a ∧ f a = .error e := by
  cases x <;> simp [bind, Except.bind]

theorem bind_eq_error_of_ok {x : Except ε α} {f : α → Except ε β} {e : ε}
    (hf : ∀ a e, f a ≠ .error e) : (x >>= f) = .error e ↔ x = .error e := by
  rw [bind_eq_error]
  exact or_iff_left fun ⟨a, _, he⟩ => hf a e he

theorem map_eq_error {x : Except ε α} {f : α → β} {e : ε} :
    x.map f = .error e ↔ x = .error e := by
  cases x <;> simp [Except.map]

/-- A check of every member succeeds exactly when each member passes. -/
theorem forM_eq_ok {f : α → Except ε Unit} {as : List α} :
    as.forM f = .ok () ↔ ∀ a ∈ as, f a = .ok () := by
  induction as with
  | nil => exact ⟨fun _ a ha => absurd ha List.not_mem_nil, fun _ => rfl⟩
  | cons a as ih =>
    have hstep : (a :: as).forM f = f a >>= fun _ => as.forM f := rfl
    rw [hstep, bind_eq_ok, List.forall_mem_cons, ← ih]
    exact ⟨fun ⟨_, ha, has⟩ => ⟨ha, has⟩, fun ⟨ha, has⟩ => ⟨(), ha, has⟩⟩

theorem exists_mem_of_forM_eq_error {f : α → Except ε Unit} {as : List α} {e : ε}
    (h : as.forM f = .error e) : ∃ a ∈ as, f a = .error e := by
  induction as with
  | nil => cases h
  | cons a as ih =>
    have hstep : (a :: as).forM f = f a >>= fun _ => as.forM f := rfl
    rw [hstep, bind_eq_error] at h
    rcases h with ha | ⟨_, _, has⟩
    · exact ⟨a, List.mem_cons_self, ha⟩
    · obtain ⟨b, hb, hfault⟩ := ih has
      exact ⟨b, List.mem_cons_of_mem a hb, hfault⟩

theorem exists_map_eq {γ : Type} {f : α → γ} {g : β → γ} {as : List α}
    (h : ∀ a ∈ as, ∃ b, f a = g b) : ∃ bs : List β, as.map f = bs.map g := by
  induction as with
  | nil => exact ⟨[], rfl⟩
  | cons a as ih =>
    obtain ⟨b, hb⟩ := h a List.mem_cons_self
    obtain ⟨bs, hbs⟩ := ih fun x hx => h x (List.mem_cons_of_mem a hx)
    exact ⟨b :: bs, by rw [List.map_cons, hb, hbs, List.map_cons]⟩

theorem exists_map_range_eq {f : Nat → Except ε α} {n : Nat} (h : ∀ k < n, ∃ a, f k = .ok a) :
    ∃ as : List α, (List.range n).map f = as.map .ok ∧ as.length = n ∧
      ∀ k a, as[k]? = some a → f k = .ok a := by
  obtain ⟨as, has⟩ := exists_map_eq (g := Except.ok) fun k hk => h k (List.mem_range.mp hk)
  have hlength := congrArg List.length has
  rw [List.length_map, List.length_range, List.length_map] at hlength
  refine ⟨as, has, hlength.symm, fun k a hk => ?_⟩
  obtain ⟨hlt, _⟩ := List.getElem?_eq_some_iff.mp hk
  have hresult := congrArg (·[k]?) has
  simp only [List.getElem?_map, List.getElem?_range (hlength ▸ hlt), hk, Option.map_some,
    Option.some.injEq] at hresult
  exact hresult

theorem mapM_eq_ok {f : α → Except ε β} {as : List α} {bs : List β} :
    as.mapM f = .ok bs ↔ as.map f = bs.map .ok := by
  induction as generalizing bs with
  | nil => cases bs <;> simp [pure, Except.pure]
  | cons a as ih =>
    rw [List.mapM_cons, bind_eq_ok]
    constructor
    · intro h'
      rcases h' with ⟨b, ha, h⟩
      obtain ⟨bs', has, h⟩ := bind_eq_ok.mp h
      cases h
      simp [ha, ih.mp has]
    · intro h
      cases bs with
      | nil => simp at h
      | cons b bs =>
        simp only [List.map_cons, List.cons.injEq] at h
        exact ⟨b, h.1, bind_eq_ok.mpr ⟨bs, ih.mpr h.2, rfl⟩⟩

section IsFirst

def IsFirst (p : α → Prop) (as : List α) (a : α) : Prop :=
  ∃ before after, as = before ++ a :: after ∧ (∀ b ∈ before, ¬ p b) ∧ p a

variable {p : α → Prop} {as : List α} {a b : α}

theorem not_isFirst_nil : ¬ IsFirst p [] a := by
  rintro ⟨before, after, has, _⟩
  cases before <;> cases has

theorem isFirst_cons_iff : IsFirst p (a :: as) b ↔ (p a ∧ a = b) ∨ (¬ p a ∧ IsFirst p as b) := by
  constructor
  · rintro ⟨before, after, has, hbefore, hb⟩
    cases before with
    | nil =>
      obtain ⟨rfl, _⟩ := List.cons.inj has
      exact .inl ⟨hb, rfl⟩
    | cons c before =>
      obtain ⟨rfl, hrest⟩ := List.cons.inj has
      obtain ⟨ha, hbefore⟩ := List.forall_mem_cons.mp hbefore
      exact .inr ⟨ha, before, after, hrest, hbefore, hb⟩
  · rintro (⟨ha, rfl⟩ | ⟨ha, before, after, rfl, hbefore, hb⟩)
    · exact ⟨[], as, rfl, List.forall_mem_nil _, ha⟩
    · exact ⟨a :: before, after, rfl, List.forall_mem_cons.mpr ⟨ha, hbefore⟩, hb⟩

theorem IsFirst.holds (h : IsFirst p as a) : p a := by
  obtain ⟨_, _, _, _, ha⟩ := h
  exact ha

theorem IsFirst.mem (h : IsFirst p as a) : a ∈ as := by
  obtain ⟨before, after, rfl, _, _⟩ := h
  exact List.mem_append_right before List.mem_cons_self

theorem exists_isFirst_iff : (∃ a, IsFirst p as a) ↔ ∃ a ∈ as, p a := by
  induction as with
  | nil => simp [not_isFirst_nil]
  | cons a as ih =>
    simp only [isFirst_cons_iff, exists_or, exists_and_left, ih, List.mem_cons, exists_eq_or_imp]
    by_cases ha : p a <;> simp [ha]

/-- A check of places that stops at the first fault has the error of the first member that has one. -/
theorem forM_range_eq_error_iff {f : Nat → Except ε Unit} {fault : α → ε → Prop} {e : ε}
    (hf : ∀ k a, as[k]? = some a → ∀ e, f k = .error e ↔ fault a e) :
    (List.range as.length).forM f = .error e ↔
      ∃ a, IsFirst (fun a => ∃ e, fault a e) as a ∧ fault a e := by
  induction as generalizing f with
  | nil => exact ⟨nofun, fun ⟨a, ha, _⟩ => absurd ha not_isFirst_nil⟩
  | cons a as ih =>
    have hstep : (List.range (a :: as).length).forM f =
        f 0 >>= fun _ => (List.range as.length).forM fun k => f (k + 1) := by
      rw [List.length_cons, List.range_succ_eq_map]
      exact congrArg (f 0 >>= fun _ => ·) List.forM_map
    have hhead := hf 0 a rfl
    rw [hstep, bind_eq_error, ih fun k b hb => hf (k + 1) b hb, hhead]
    simp only [isFirst_cons_iff]
    by_cases ha : ∃ e, fault a e
    · obtain ⟨e', he'⟩ := ha
      constructor
      · rintro (he | ⟨_, hok, _⟩)
        · exact ⟨a, .inl ⟨⟨e', he'⟩, rfl⟩, he⟩
        · cases hok.symm.trans ((hhead e').mpr he')
      · rintro ⟨b, ⟨_, rfl⟩ | ⟨hnone, _⟩, he⟩
        · exact .inl he
        · exact absurd ⟨e', he'⟩ hnone
    · have hok : f 0 = .ok () := by
        cases h : f 0 with
        | ok => rfl
        | error e' => exact absurd ⟨e', (hhead e').mp h⟩ ha
      have hnone : ¬ fault a e := fun he => ha ⟨e, he⟩
      simp [ha, hok, hnone]

theorem find?_eq_some_iff_isFirst {q : α → Bool} (hq : ∀ a, q a ↔ p a) :
    as.find? q = some a ↔ IsFirst p as a := by
  rw [List.find?_eq_some_iff_append, IsFirst]
  simp only [Bool.not_eq_true', ← Bool.not_eq_true, hq]
  constructor
  · rintro ⟨ha, before, after, has, hbefore⟩
    exact ⟨before, after, has, hbefore, ha⟩
  · rintro ⟨before, after, has, hbefore, ha⟩
    exact ⟨ha, before, after, has, hbefore⟩

/-- The error of a list of computations is that of the first that cannot succeed. -/
theorem mapM_eq_error_iff {f : α → Except ε β} {g : α → ε} {e : ε}
    (hok : ∀ a, ¬ p a → ∃ b, f a = .ok b) (herror : ∀ a, p a → f a = .error (g a)) :
    as.mapM f = .error e ↔ ∃ a, IsFirst p as a ∧ g a = e := by
  induction as with
  | nil =>
    rw [List.mapM_nil]
    exact ⟨nofun, fun ⟨a, ha, _⟩ => absurd ha not_isFirst_nil⟩
  | cons a as ih =>
    rw [List.mapM_cons]
    simp only [isFirst_cons_iff]
    by_cases ha : p a
    · rw [herror a ha]
      constructor
      · rintro ⟨⟩
        exact ⟨a, .inl ⟨ha, rfl⟩, rfl⟩
      · rintro ⟨b, ⟨_, rfl⟩ | ⟨hna, _⟩, rfl⟩
        · rfl
        · exact absurd ha hna
    · obtain ⟨b, hb⟩ := hok a ha
      have hrest : (f a >>= fun b => as.mapM f >>= fun bs => pure (b :: bs)) = .error e ↔
          as.mapM f = .error e := by
        rw [hb]
        change (as.mapM f >>= fun bs => pure (b :: bs)) = .error e ↔ _
        exact bind_eq_error_of_ok fun _ _ => nofun
      rw [hrest, ih]
      simp [ha]

end IsFirst

section FailsWith

/-- Every error in which a computation can end has a property. -/
def FailsWith (p : ε → Prop) (x : Except ε α) : Prop :=
  ∀ e, x = .error e → p e

variable {p q : ε → Prop} {x : Except ε α}

theorem FailsWith.ok (a : α) : FailsWith p (.ok a) := nofun

theorem FailsWith.error {e : ε} (h : p e) : FailsWith p (.error e : Except ε α) := by
  rintro _ ⟨⟩
  exact h

theorem FailsWith.mono (h : FailsWith p x) (hpq : ∀ e, p e → q e) : FailsWith q x :=
  fun e he => hpq e (h e he)

theorem FailsWith.bind {f : α → Except ε β} (hx : FailsWith p x)
    (hf : ∀ a, x = .ok a → FailsWith p (f a)) : FailsWith p (x >>= f) := by
  intro e he
  rcases bind_eq_error.mp he with he | ⟨a, ha, he⟩
  · exact hx e he
  · exact hf a ha e he

theorem FailsWith.map {f : α → β} (hx : FailsWith p x) : FailsWith p (x.map f) :=
  fun e he => hx e (map_eq_error.mp he)

theorem FailsWith.foldlM {f : β → α → Except ε β} (h : ∀ b a, FailsWith p (f b a)) (as : List α)
    (b : β) : FailsWith p (as.foldlM f b) := by
  induction as generalizing b with
  | nil => exact .ok b
  | cons a as ih =>
    rw [List.foldlM_cons]
    exact .bind (h b a) fun b' _ => ih b'

end FailsWith

end Ancestry.Outcome
