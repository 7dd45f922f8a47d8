import Mathlib.Data.List.Forall2

/-! Results that may be errors: how binds and maps over lists compute. -/
namespace JkBuild

@[simp] theorem ok_bind (a : α) (f : α → Except ε β) : (Except.ok a >>= f) = f a := rfl

@[simp] theorem error_bind (e : ε) (f : α → Except ε β) :
    ((Except.error e : Except ε α) >>= f) = .error e := rfl

@[simp] theorem ok_pure (a : α) : (pure a : Except ε α) = .ok a := rfl

theorem bind_ok {x : Except ε α} {f : α → Except ε β} (done : (x >>= f) = .ok b) :
    ∃ a, x = .ok a ∧ f a = .ok b := by
  cases x with
  | error e => contradiction
  | ok a => exact ⟨a,rfl,done⟩

theorem bind_error {x : Except ε α} {f : α → Except ε β} (failed : (x >>= f) = .error e) :
    x = .error e ∨ ∃ a, x = .ok a ∧ f a = .error e := by
  cases x with
  | error e' => exact .inl (congrArg _ (Except.error.inj failed))
  | ok a => exact .inr ⟨a,rfl,failed⟩

instance decidableOk (x : Except ε α) (property : α → Prop) [DecidablePred property] :
    Decidable (∃ a, x = .ok a ∧ property a) :=
  match x with
  | .ok a => decidable_of_iff (property a) ⟨fun holds => ⟨a,rfl,holds⟩,fun ⟨_,same,holds⟩ => Except.ok.inj same ▸ holds⟩
  | .error _ => isFalse fun ⟨_,same,_⟩ => by contradiction

/-- What each step of a loop keeps holds at its end. -/
theorem foldlM_keeps {f : σ → α → Except ε σ} (property : σ → Prop) (xs : List α)
    (each : ∀ x ∈ xs, ∀ s s', property s → f s x = .ok s' → property s') (h : property s)
    (done : xs.foldlM f s = .ok s') : property s' := by
  induction xs generalizing s with
  | nil =>
    obtain rfl := Except.ok.inj done
    exact h
  | cons x xs ih =>
    rw [List.foldlM_cons] at done
    obtain ⟨middle,first,rest⟩ := bind_ok done
    exact ih (fun y member => each y (List.mem_cons_of_mem _ member)) (each x (by simp) s middle h first) rest

theorem mapM_total {f : α → Except ε β} {property : α → β → Prop} (xs : List α)
    (each : ∀ x ∈ xs, ∃ y, f x = .ok y ∧ property x y) :
    ∃ ys, xs.mapM f = .ok ys ∧ List.Forall₂ (fun x y => f x = .ok y ∧ property x y) xs ys := by
  induction xs with
  | nil => exact ⟨[],rfl,.nil⟩
  | cons x xs ih =>
    obtain ⟨y,first,holds⟩ := each x (by simp)
    obtain ⟨ys,rest,all⟩ := ih fun z member => each z (List.mem_cons_of_mem _ member)
    refine ⟨y :: ys,?_,.cons ⟨first,holds⟩ all⟩
    rw [List.mapM_cons,first,ok_bind,rest]
    rfl

theorem forall₂_left {r : α → β → Prop} (h : List.Forall₂ r xs ys) (member : x ∈ xs) : ∃ y ∈ ys, r x y := by
  induction h with
  | nil => contradiction
  | cons related _ ih =>
    cases member with
    | head => exact ⟨_,by simp,related⟩
    | tail _ member =>
      obtain ⟨y,inside,related⟩ := ih member
      exact ⟨y,List.mem_cons_of_mem _ inside,related⟩

theorem forall₂_right {r : α → β → Prop} (h : List.Forall₂ r xs ys) (member : y ∈ ys) : ∃ x ∈ xs, r x y :=
  forall₂_left (List.Forall₂.flip h) member

theorem mapM_fails {f : α → Except ε β} {xs : List α} (failed : xs.mapM f = .error e) : ∃ x ∈ xs, f x = .error e := by
  induction xs with
  | nil => contradiction
  | cons x xs ih =>
    rw [List.mapM_cons] at failed
    cases first : f x with
    | error e' =>
      rw [first] at failed
      obtain rfl := Except.error.inj failed
      exact ⟨x,List.mem_cons_self,first⟩
    | ok y =>
      rw [first,ok_bind] at failed
      cases rest : xs.mapM f with
      | error e' =>
        rw [rest] at failed
        obtain rfl := Except.error.inj failed
        obtain ⟨z,member,fails⟩ := ih rest
        exact ⟨z,List.mem_cons_of_mem _ member,fails⟩
      | ok ys =>
        rw [rest] at failed
        contradiction

theorem mapM_each {f : α → Except ε β} {xs : List α} (done : xs.mapM f = .ok ys) (member : x ∈ xs) :
    ∃ y, f x = .ok y := by
  induction xs generalizing ys with
  | nil => contradiction
  | cons z xs ih =>
    rw [List.mapM_cons] at done
    obtain ⟨y,first,done⟩ := bind_ok done
    obtain ⟨rest,all,-⟩ := bind_ok done
    cases member with
    | head => exact ⟨y,first⟩
    | tail _ member => exact ih all member

end JkBuild
