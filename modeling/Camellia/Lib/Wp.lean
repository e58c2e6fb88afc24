import Mathlib.Order.Defs.Unbundled
import Mathlib.Tactic.Common

-- The weakest precondition of a stateful computation which may stop with an error: `Q` is demanded
-- of every result together with the final state, and `E` of every error.
def wp {σ ε α : Type} (x : StateT σ (Except ε) α) (Q : α → σ → Prop) (E : ε → Prop) (s : σ) : Prop :=
  match x s with
  | .ok (a, s') => Q a s'
  | .error e    => E e

section Wp

variable {σ ε α β : Type} {x : StateT σ (Except ε) α} {f : α → StateT σ (Except ε) β}
variable {Q Q' : α → σ → Prop} {R : β → σ → Prop} {E E' : ε → Prop} {s s' : σ}

theorem wp_iff : wp x Q E s ↔ match x s with | .ok (a, t) => Q a t | .error e => E e :=
  Iff.rfl

@[simp]
theorem wp_pure {a : α} : wp (pure a) Q E s ↔ Q a s :=
  Iff.rfl

@[simp]
theorem wp_bind : wp (x >>= f) R E s ↔ wp x (fun a => wp (f a) R E) E s := by
  simp only [wp, bind, StateT.bind, Except.bind]
  cases x s <;> rfl

@[simp]
theorem wp_map {g : α → β} : wp (g <$> x) R E s ↔ wp x (fun a => R (g a)) E s := by
  simp only [wp, Functor.map, StateT.map, bind, Except.bind]
  cases x s <;> rfl

@[simp]
theorem wp_throw {e : ε} : wp (throw e : StateT σ (Except ε) α) Q E s ↔ E e :=
  Iff.rfl

@[simp]
theorem wp_get {Q : σ → σ → Prop} : wp (get : StateT σ (Except ε) σ) Q E s ↔ Q s s :=
  Iff.rfl

@[simp]
theorem wp_modify {g : σ → σ} {Q : PUnit → σ → Prop} :
    wp (modify g : StateT σ (Except ε) PUnit) Q E s ↔ Q ⟨⟩ (g s) :=
  Iff.rfl

@[simp]
theorem wp_set {Q : PUnit → σ → Prop} :
    wp (set s' : StateT σ (Except ε) PUnit) Q E s ↔ Q ⟨⟩ s' :=
  Iff.rfl

@[simp]
theorem wp_discard {R : PUnit → σ → Prop} : wp (discard x) R E s ↔ wp x (fun _ => R ⟨⟩) E s :=
  wp_map

theorem wp_ite {c : Prop} [Decidable c] {y : StateT σ (Except ε) α} :
    wp (if c then x else y) Q E s ↔ (c → wp x Q E s) ∧ (¬c → wp y Q E s) := by
  by_cases h : c <;> simp [h]

theorem wp_mono (h : wp x Q E s) (hq : ∀ a s', Q a s' → Q' a s') (he : ∀ e, E e → E' e) :
    wp x Q' E' s := by
  simp only [wp] at h ⊢
  split at h
  · exact hq _ _ h
  · exact he _ h

-- The consequence rule for the result alone.
theorem wp_post (h : wp x Q E s) (hq : ∀ a s', Q a s' → Q' a s') : wp x Q' E s :=
  wp_mono h hq fun _ => id

-- The first step of a computation whose result is known.
theorem wp_iff_of_ok {a : α} (hr : x s = .ok (a, s')) : wp x Q E s ↔ Q a s' := by
  simp [wp, hr]

theorem bind_of_ok {a : α} (hr : x s = .ok (a, s')) : (x >>= f) s = f a s' := by
  simp [bind, StateT.bind, Except.bind, hr]

-- A computation which succeeds has made its first step.
theorem bind_ok {b : β} (hr : (x >>= f) s = .ok (b, s')) :
    ∃ a t, x s = .ok (a, t) ∧ f a t = .ok (b, s') := by
  cases hx : x s
  case error e =>
    have : (x >>= f) s = .error e := by simp [bind, StateT.bind, Except.bind, hx]
    rw [hr] at this
    contradiction
  case ok r => exact ⟨r.1, r.2, rfl, (bind_of_ok hx).symm.trans hr⟩

theorem wp_of_ok {a : α} (hr : x s = .ok (a, s')) (h : wp x Q E s) : Q a s' := by
  simpa [wp, hr] using h

theorem wp_of_error {e : ε} (hr : x s = .error e) (h : wp x Q E s) : E e := by
  simpa [wp, hr] using h

theorem wp_of_forall (hq : ∀ a s', x s = .ok (a, s') → Q a s') (he : ∀ e, x s = .error e → E e) :
    wp x Q E s := by
  simp only [wp]
  split
  · exact hq _ _ ‹_›
  · exact he _ ‹_›

-- What is left to show of a computation, if nothing has to be known about its first step.
theorem wp_bind_forall (h : ∀ a s, wp (f a) R (fun _ => True) s) :
    wp (x >>= f) R (fun _ => True) s :=
  wp_bind.mpr <| wp_of_forall (fun a s _ => h a s) fun _ _ => trivial

-- Without errors, `wp` speaks about the result of a successful run.
theorem wp_false_iff : wp x Q (fun _ => False) s ↔ ∃ a s', x s = .ok (a, s') ∧ Q a s' := by
  simp only [wp]
  split <;> simp_all

-- The rule for loops over a list, with an invariant of the elements that are left.
theorem wp_forM {l : List α} {g : α → StateT σ (Except ε) PUnit} (I : List α → σ → Prop)
    (hstep : ∀ a l s, I (a :: l) s → wp (g a) (fun _ => I l) E s) (h : I l s) :
    wp (l.forM g) (fun _ => I []) E s := by
  induction l generalizing s
  case nil => exact h
  case cons a l hi =>
    show wp (g a >>= fun _ => l.forM g) _ E s
    rw [wp_bind]
    exact wp_post (hstep a l s h) fun _ _ => hi

end Wp

-- The weakest liberal precondition: nothing is demanded of the errors.
def wlp {σ ε α : Type} (x : StateT σ (Except ε) α) (Q : α → σ → Prop) (s : σ) : Prop :=
  wp x Q (fun _ => True) s

section Wlp

variable {σ ε α β : Type} {x y : StateT σ (Except ε) α} {f : α → StateT σ (Except ε) β}
variable {Q Q' : α → σ → Prop} {R : β → σ → Prop} {s s' : σ}

theorem wlp_iff_wp : wlp x Q s ↔ wp x Q (fun _ => True) s :=
  Iff.rfl

theorem wlp_iff : wlp x Q s ↔ ∀ a t, x s = .ok (a, t) → Q a t := by
  simp only [wlp, wp]
  split <;> simp_all

@[simp]
theorem wlp_pure {a : α} : wlp (pure a : StateT σ (Except ε) α) Q s ↔ Q a s :=
  wp_pure

@[simp]
theorem wlp_bind : wlp (x >>= f) R s ↔ wlp x (fun a t => wlp (f a) R t) s :=
  wp_bind

@[simp]
theorem wlp_map {g : α → β} : wlp (g <$> x) R s ↔ wlp x (fun a t => R (g a) t) s :=
  wp_map

@[simp]
theorem wlp_discard {R : PUnit → σ → Prop} : wlp (discard x) R s ↔ wlp x (fun _ t => R ⟨⟩ t) s :=
  wp_discard

@[simp]
theorem wlp_throw {e : ε} : wlp (throw e : StateT σ (Except ε) α) Q s ↔ True :=
  wp_throw

@[simp]
theorem wlp_get {Q : σ → σ → Prop} : wlp (get : StateT σ (Except ε) σ) Q s ↔ Q s s :=
  wp_get

@[simp]
theorem wlp_modify {g : σ → σ} {Q : PUnit → σ → Prop} :
    wlp (modify g : StateT σ (Except ε) PUnit) Q s ↔ Q ⟨⟩ (g s) :=
  wp_modify

theorem wlp_ite {c : Prop} [Decidable c] :
    wlp (if c then x else y) Q s ↔ (c → wlp x Q s) ∧ (¬c → wlp y Q s) :=
  wp_ite

theorem wlp_post (h : wlp x Q s) (hq : ∀ a t, Q a t → Q' a t) : wlp x Q' s :=
  wp_post h hq

theorem wlp_true : wlp x (fun _ _ => True) s :=
  wlp_iff.mpr fun _ _ _ => trivial

theorem wlp_and (h : wlp x Q s) (h' : wlp x Q' s) : wlp x (fun a t => Q a t ∧ Q' a t) s :=
  wlp_iff.mpr fun a t hr => ⟨wlp_iff.mp h a t hr, wlp_iff.mp h' a t hr⟩

theorem wlp_of_ok {a : α} (hr : x s = .ok (a, s')) (h : wlp x Q s) : Q a s' :=
  wp_of_ok hr h

-- The rule for loops over a list, with an invariant of the elements that are left.
theorem wlp_forM {l : List α} {g : α → StateT σ (Except ε) PUnit} (I : List α → σ → Prop)
    (hstep : ∀ a l s, I (a :: l) s → wlp (g a) (fun _ => I l) s) (h : I l s) :
    wlp (l.forM g) (fun _ => I []) s :=
  wp_forM I hstep h

end Wlp

-- From here on the rules above are the only way to look into a computation.
attribute [irreducible] wp wlp

-- Every run of the computation takes a state to one that is related to it.
def Respects {σ ε α : Type} (R : σ → σ → Prop) (x : StateT σ (Except ε) α) : Prop :=
  ∀ s, wlp x (fun _ t => R s t) s

-- If the relation is a preorder, then what respects it is closed under everything that computations
-- are built with.
section Respects

variable {σ ε α β : Type} {R : σ → σ → Prop} {x y : StateT σ (Except ε) α}
variable {f : α → StateT σ (Except ε) β}

theorem Respects.of_ok {a : α} {s t : σ} (h : Respects R x) (hr : x s = .ok (a, t)) : R s t :=
  wlp_of_ok (Q := fun _ t => R s t) hr (h s)

@[grind ←]
theorem respects_throw {e : ε} : Respects R (throw e : StateT σ (Except ε) α) :=
  fun _ => wlp_throw.mpr trivial

theorem respects_modify {g : σ → σ} (h : ∀ s, R s (g s)) :
    Respects R (modify g : StateT σ (Except ε) PUnit) :=
  fun s => wlp_modify.mpr (h s)

theorem Respects.ite {c : Prop} [Decidable c] (hx : Respects R x) (hy : Respects R y) :
    Respects R (if c then x else y) :=
  fun s => wlp_ite.mpr ⟨fun _ => hx s, fun _ => hy s⟩

@[grind ←]
theorem Respects.map {g : α → β} (hx : Respects R x) : Respects R (g <$> x) :=
  fun s => wlp_map.mpr (hx s)

@[grind ←]
theorem Respects.discard (hx : Respects R x) : Respects R (discard x) :=
  fun s => wlp_discard.mpr (hx s)

variable [IsPreorder σ R]

@[grind ←]
theorem respects_pure {a : α} : Respects R (pure a : StateT σ (Except ε) α) :=
  fun s => wlp_pure.mpr (refl_of R s)

@[grind ←]
theorem respects_get : Respects R (get : StateT σ (Except ε) σ) :=
  fun s => wlp_get.mpr (refl_of R s)

-- The computation starts in a state which is related to an earlier one.
theorem wlp_of_respects {s s' : σ} (h : R s s') (hx : Respects R x) :
    wlp x (fun _ t => R s t) s' :=
  wlp_post (hx s') fun _ _ ht => trans_of R h ht

@[grind ←]
theorem Respects.bind (hx : Respects R x) (hf : ∀ a, Respects R (f a)) :
    Respects R (x >>= f) := fun s => by
  rw [wlp_bind]
  exact wlp_post (hx s) fun a _ h => wlp_of_respects h (hf a)

@[grind ←]
theorem Respects.forM {l : List α} {g : α → StateT σ (Except ε) PUnit}
    (h : ∀ a, Respects R (g a)) : Respects R (l.forM g) := by
  induction l
  case nil          => exact respects_pure
  case cons a l hi => exact Respects.bind (h a) fun _ => hi

end Respects

-- Every error of the computation is one of `E`.
def Raises {σ ε α : Type} (E : ε → Prop) (x : StateT σ (Except ε) α) : Prop :=
  ∀ s, wp x (fun _ _ => True) E s

section Raises

variable {σ ε α β : Type} {E : ε → Prop} {x y : StateT σ (Except ε) α}
variable {f : α → StateT σ (Except ε) β}

theorem Raises.of_error {s : σ} {e : ε} (h : Raises E x) (hr : x s = .error e) : E e :=
  wp_of_error hr (h s)

theorem raises_pure {a : α} : Raises E (pure a : StateT σ (Except ε) α) :=
  fun _ => wp_pure.mpr trivial

theorem raises_get : Raises E (get : StateT σ (Except ε) σ) :=
  fun _ => wp_get.mpr trivial

theorem raises_modify {g : σ → σ} : Raises E (modify g : StateT σ (Except ε) PUnit) :=
  fun _ => wp_modify.mpr trivial

theorem Raises.ite {c : Prop} [Decidable c] (hx : Raises E x) (hy : Raises E y) :
    Raises E (if c then x else y) :=
  fun s => wp_ite.mpr ⟨fun _ => hx s, fun _ => hy s⟩

theorem Raises.bind (hx : Raises E x) (hf : ∀ a, Raises E (f a)) : Raises E (x >>= f) :=
  fun s => wp_bind.mpr <| wp_post (hx s) fun a t _ => hf a t

end Raises
