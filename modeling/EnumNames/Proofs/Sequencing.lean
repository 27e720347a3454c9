import EnumNames.Log
import Mathlib.Data.List.Forall2

/-!
Taking apart computations that went through. A sequence that ends with a value
had a value at each step, and its events are those of the steps in order.
-/

namespace EnumNames

variable {ε α β : Type}

@[simp] theorem ok_bind (a : α) (next : α → Except ε β) : (Except.ok a >>= next) = next a := rfl

theorem exists_of_isOk {x : Except ε α} (h : x.isOk = true) : ∃ a, x = .ok a := by
  cases x with
  | ok a => exact ⟨a, rfl⟩
  | error _ => cases h

theorem ok_of_toOption {x : Except ε α} {a : α} (h : x.toOption = some a) : x = .ok a := by
  cases x with
  | ok _ => exact congrArg Except.ok (Option.some.inj h)
  | error _ => cases h

theorem ok_of_map {f : α → β} {x : Except ε α} {b : β} (h : x.map f = .ok b) :
    ∃ a, x = .ok a ∧ f a = b := by
  cases x with
  | ok a => exact ⟨a, rfl, Except.ok.inj h⟩
  | error _ => cases h

theorem ok_of_mapError {ε' : Type} {f : ε → ε'} {x : Except ε α} {a : α}
    (h : x.mapError f = .ok a) : x = .ok a := by
  cases x with
  | ok _ => exact congrArg Except.ok (Except.ok.inj h)
  | error _ => cases h

theorem ok_of_bind {x : Except ε α} {next : α → Except ε β} {b : β} (h : x >>= next = .ok b) :
    ∃ a, x = .ok a ∧ next a = .ok b := by
  cases x with
  | ok a => exact ⟨a, rfl, h⟩
  | error _ => cases h

/-- Two results that agree after forgetting something are one failure, or values that agree. -/
theorem cases_of_map_eq {γ : Type} {view : α → γ} {x y : Except ε α} (h : x.map view = y.map view) :
    (∃ e, x = .error e ∧ y = .error e) ∨ ∃ a b, x = .ok a ∧ y = .ok b ∧ view a = view b := by
  cases x with
  | error e =>
      cases y with
      | error e' => exact .inl ⟨e, rfl, congrArg Except.error (Except.error.inj h).symm⟩
      | ok b => cases h
  | ok a =>
      cases y with
      | error e => cases h
      | ok b => exact .inr ⟨a, b, rfl, rfl, Except.ok.inj h⟩

theorem bind_agree {γ δ : Type} {view : α → γ} {view' : β → δ} {x y : Except ε α}
    {f g : α → Except ε β} (h : x.map view = y.map view)
    (hnext : ∀ a b, view a = view b → (f a).map view' = (g b).map view') :
    (x >>= f).map view' = (y >>= g).map view' := by
  obtain ⟨e, rfl, rfl⟩ | ⟨a, b, rfl, rfl, hab⟩ := cases_of_map_eq h
  · rfl
  · exact hnext a b hab

/-- Two readings of lists agree after forgetting something when those of their items do. -/
theorem mapM_agree {γ δ : Type} {view : γ → δ} {read : α → Except ε γ} {read' : β → Except ε γ}
    {as : List α} {bs : List β}
    (h : List.Forall₂ (fun a b => (read' b).map view = (read a).map view) as bs) :
    (bs.mapM read').map (List.map view) = (as.mapM read).map (List.map view) := by
  induction h with
  | nil => rfl
  | cons hab _ ih =>
      rw [List.mapM_cons, List.mapM_cons]
      refine bind_agree hab fun c c' hc => bind_agree ih fun cs cs' hcs => ?_
      exact congrArg Except.ok (by rw [List.map_cons, List.map_cons, hc, hcs])

/-- A reading that succeeds on the image of each item succeeds on the image of the list. -/
theorem mapM_map_ok {α β γ ε : Type} {f : α → β} {read : β → Except ε γ} {g : α → γ}
    (h : ∀ a, read (f a) = .ok (g a)) (as : List α) : (as.map f).mapM read = .ok (as.map g) := by
  induction as with
  | nil => rfl
  | cons a as ih =>
      rw [List.map_cons, List.mapM_cons, h a, ih]
      rfl

/-- A reading that succeeds on each item succeeds on the list. -/
theorem mapM_ok {read : α → Except ε β} {as : List α} (h : ∀ a ∈ as, ∃ b, read a = .ok b) :
    ∃ bs, as.mapM read = .ok bs := by
  induction as with
  | nil => exact ⟨[], rfl⟩
  | cons a as ih =>
      obtain ⟨b, hb⟩ := h a (by simp)
      obtain ⟨bs, hbs⟩ := ih fun a' ha' => h a' (by simp [ha'])
      exact ⟨b :: bs, by rw [List.mapM_cons, hb, hbs]; rfl⟩

theorem forall₂_of_mapM {read : α → Except ε β} {as : List α} {bs : List β}
    (h : as.mapM read = .ok bs) : List.Forall₂ (fun a b => read a = .ok b) as bs := by
  induction as generalizing bs with
  | nil =>
      cases h
      exact .nil
  | cons a as ih =>
      rw [List.mapM_cons] at h
      obtain ⟨b, hb, h⟩ := ok_of_bind h
      obtain ⟨bs, hbs, h⟩ := ok_of_bind h
      cases h
      exact .cons hb (ih hbs)

/-- Each result of a reading of a list is that of one of its items. -/
theorem exists_of_mapM_ok {γ : Type} {read : α → Except ε γ} {as : List α} {cs : List γ}
    (h : as.mapM read = .ok cs) {c : γ} (hc : c ∈ cs) : ∃ a ∈ as, read a = .ok c := by
  induction as generalizing cs with
  | nil =>
      cases h
      cases hc
  | cons a as ih =>
      rw [List.mapM_cons] at h
      obtain ⟨b, hb, h⟩ := ok_of_bind h
      obtain ⟨bs, hbs, h⟩ := ok_of_bind h
      cases h
      rcases List.mem_cons.1 hc with rfl | hc
      · exact ⟨a, by simp, hb⟩
      · obtain ⟨a', ha', hread⟩ := ih hbs hc
        exact ⟨a', by simp [ha'], hread⟩

/-- Each item of a list that is read has its result among those of the list. -/
theorem ok_of_mem_mapM {read : α → Except ε β} {as : List α} {bs : List β}
    (h : as.mapM read = .ok bs) {a : α} (ha : a ∈ as) : ∃ b ∈ bs, read a = .ok b := by
  induction as generalizing bs with
  | nil => cases ha
  | cons a' as ih =>
      rw [List.mapM_cons] at h
      obtain ⟨b, hb, h⟩ := ok_of_bind h
      obtain ⟨rest, hrest, h⟩ := ok_of_bind h
      cases h
      rcases List.mem_cons.1 ha with rfl | ha
      · exact ⟨b, List.mem_cons_self, hb⟩
      · obtain ⟨c, hc, hread⟩ := ih hrest ha
        exact ⟨c, List.mem_cons_of_mem b hc, hread⟩

namespace Logged

@[simp] theorem events_pure (a : α) : (pure a : Logged α).events = [] := rfl

@[simp] theorem events_note (e : Event) : (note e).events = [e] := rfl

@[simp] theorem result_note (e : Event) : (note e).result = .ok () := rfl

theorem events_bind {x : Logged α} {a : α} (h : x.result = .ok a) (next : α → Logged β) :
    (x >>= next).events = x.events ++ (next a).events := by
  show (andThen x next).events = _
  simp [andThen, h]

theorem ok_of_result_bind {x : Logged α} {next : α → Logged β} {b : β}
    (h : (x >>= next).result = .ok b) : ∃ a, x.result = .ok a ∧ (next a).result = .ok b := by
  rw [result_bind] at h
  exact ok_of_bind h

theorem pure_andThen (a : α) (next : α → Logged β) : (pure a >>= next) = next a := by
  show andThen ⟨[], .ok a⟩ next = next a
  simp [andThen]

theorem andThen_assoc {γ : Type} (x : Logged α) (f : α → Logged β) (g : β → Logged γ) :
    x >>= f >>= g = x >>= fun a => f a >>= g := by
  show andThen (andThen x f) g = andThen x fun a => andThen (f a) g
  unfold andThen
  cases hx : x.result with
  | error _ => rfl
  | ok a => cases hf : (f a).result <;> simp [hf]

/-- What comes after a computation matters only at the value that it ends with. -/
theorem bind_congr_of_result {x : Logged α} {f g : α → Logged β}
    (h : ∀ a, x.result = .ok a → f a = g a) : x >>= f = x >>= g := by
  show andThen x f = andThen x g
  unfold andThen
  cases hx : x.result with
  | error _ => rfl
  | ok a => simp [h a hx]

theorem result_forM {check : α → Logged Unit} {as : List α}
    (h : ∀ a ∈ as, (check a).result = .ok ()) : (as.forM check).result = .ok () := by
  induction as with
  | nil => rfl
  | cons a as ih =>
      change (check a >>= fun _ => as.forM check).result = .ok ()
      rw [result_bind, h a List.mem_cons_self]
      exact ih fun b hb => h b (List.mem_cons_of_mem a hb)

/-- A check of several fails if one of them does. -/
theorem error_of_forM {check : α → Logged Unit} {as : List α} {a : α}
    {f : Failure} (ha : a ∈ as) (h : (check a).result = .error f) :
    ∃ b ∈ as, ∃ g, (check b).result = .error g ∧ (as.forM check).result = .error g := by
  induction as with
  | nil => cases ha
  | cons b as ih =>
      change ∃ c ∈ b :: as, ∃ g, (check c).result = .error g ∧
        (check b >>= fun _ => as.forM check).result = .error g
      rw [result_bind]
      cases hb : (check b).result with
      | error g => exact ⟨b, List.mem_cons_self, g, hb, rfl⟩
      | ok u =>
          have htail : a ∈ as := by
            refine (List.mem_cons.1 ha).resolve_left ?_
            rintro rfl
            rw [hb] at h
            cases h
          obtain ⟨c, hc, g, hg, hrest⟩ := ih htail
          exact ⟨c, List.mem_cons_of_mem b hc, g, hg, hrest⟩

/-- What every step keeps the whole run keeps. -/
theorem foldlM_keeps {I : β → Prop} {step : β → α → Logged β} {as : List α} {b b' : β}
    (hstep : ∀ a ∈ as, ∀ b b', I b → (step b a).result = .ok b' → I b') (hb : I b)
    (h : (as.foldlM step b).result = .ok b') : I b' := by
  induction as generalizing b with
  | nil =>
      cases h
      exact hb
  | cons a as ih =>
      rw [List.foldlM_cons] at h
      obtain ⟨b₁, h₁, h⟩ := ok_of_result_bind h
      exact ih (fun a ha => hstep a (by simp [ha])) (hstep a (by simp) b b₁ hb h₁) h

/-- Two runs agree after forgetting something when their steps do. -/
theorem foldlM_agree {γ δ : Type} {view : β → γ} {key : α → δ} {step₁ step₂ : β → α → Logged β}
    (hstep : ∀ s t a b, view s = view t → key a = key b →
      (step₁ s a).result.map view = (step₂ t b).result.map view)
    {as bs : List α} {s t : β} (hkeys : as.map key = bs.map key) (hst : view s = view t) :
    (as.foldlM step₁ s).result.map view = (bs.foldlM step₂ t).result.map view := by
  induction as generalizing bs s t with
  | nil =>
      obtain rfl := List.map_eq_nil_iff.1 hkeys.symm
      exact congrArg Except.ok hst
  | cons a as ih =>
      cases bs with
      | nil => cases hkeys
      | cons b bs =>
          obtain ⟨hab, hrest⟩ := List.cons.inj hkeys
          rw [List.foldlM_cons, List.foldlM_cons, result_bind, result_bind]
          exact bind_agree (hstep s t a b hst hab) fun s' t' h' => ih hrest h'

end Logged
end EnumNames
