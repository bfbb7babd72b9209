/-
  Kairyu/Effect.lean
  ==================
  **Stateful programs that raise** — a small library.

  An `Effect σ ε α` runs on a state and either returns or raises; what it did to the state
  before it raised stays.  `Triple P m Q E` says that from a state in `P` the program
  returns in `Q` or raises in `E`.  One rule per construct; `each` is the loop over a list,
  with an invariant that may speak of the elements left.
-/
import Mathlib.Logic.Basic

/-- The steps of a program without a state that returns. -/
theorem Except.of_bind_ok {ε β γ : Type} {m : Except ε β} {f : β → Except ε γ} {c : γ} (h : m >>= f = .ok c) :
    ∃ b, m = .ok b ∧ f b = .ok c := by
  cases m with
  | error e => cases h
  | ok b => exact ⟨b, rfl, h⟩

/-- A program on a state that returns a value or raises. -/
def Effect (σ ε α : Type) : Type := σ → Except ε α × σ

namespace Effect

variable {σ ε ε' α β : Type}

/-! ### Programs -/

def bind (m : Effect σ ε α) (f : α → Effect σ ε β) : Effect σ ε β := fun s =>
  match m s with
  | (.ok a, t) => f a t
  | (.error e, t) => (.error e, t)

instance : Monad (Effect σ ε) where
  pure a := fun s => (.ok a, s)
  bind := bind

def raise (e : ε) : Effect σ ε α := fun s => (.error e, s)

def get : Effect σ ε σ := fun s => (.ok s, s)

def modify (f : σ → σ) : Effect σ ε Unit := fun s => (.ok (), f s)

/-- `try: m except e: handler(e)` -/
def handle (m : Effect σ ε α) (handler : ε → Effect σ ε' α) : Effect σ ε' α := fun s =>
  match m s with
  | (.ok a, t) => (.ok a, t)
  | (.error e, t) => handler e t

/-- `for a in list: f(a)` -/
def each (f : α → Effect σ ε Unit) : List α → Effect σ ε Unit
  | [] => pure ()
  | a :: rest => do
    f a
    each f rest

/-- A program on a part of the state. -/
def zoom {τ : Type} (view : τ → σ) (put : σ → τ → τ) (m : Effect σ ε α) : Effect τ ε α := fun t =>
  let (result, s) := m (view t)
  (result, put s t)

/-- Forgetting what a program returns leaves its state. -/
theorem forget_state (m : Effect σ ε α) (s : σ) : ((m >>= fun _ => pure () : Effect σ ε Unit) s).2 = (m s).2 := by
  show (Effect.bind m (fun _ => pure ()) s).2 = (m s).2
  unfold Effect.bind
  split
  · next heq => rw [heq]; rfl
  · next heq => rw [heq]

/-! ### Pre- and postconditions -/

/-- From a state in `P` the program returns in `Q` or raises in `E`. -/
def Triple (P : σ → Prop) (m : Effect σ ε α) (Q : α → σ → Prop) (E : ε → σ → Prop) : Prop :=
  ∀ s, P s →
    match m s with
    | (.ok a, t) => Q a t
    | (.error e, t) => E e t

variable {P P' : σ → Prop} {Q Q' : α → σ → Prop} {R : β → σ → Prop} {E E' : ε → σ → Prop} {m : Effect σ ε α}

theorem triple_pure {a : α} (h : ∀ s, P s → Q a s) : Triple P (pure a : Effect σ ε α) Q E := h

theorem triple_raise {e : ε} (h : ∀ s, P s → E e s) : Triple P (raise e : Effect σ ε α) Q E := h

theorem triple_modify {f : σ → σ} {Q : Unit → σ → Prop} (h : ∀ s, P s → Q () (f s)) : Triple P (modify f) Q E := h

theorem triple_get {Q : σ → σ → Prop} (h : ∀ s, P s → Q s s) : Triple P get Q E := h

variable {f : α → Effect σ ε β} {m' : Effect σ ε α}

theorem triple_bind (hm : Triple P m Q E) (hf : ∀ a, Triple (Q a) (f a) R E) : Triple P (m >>= f) R E := by
  intro s hs
  have hfirst := hm s hs
  show match Effect.bind m f s with
    | (.ok b, t) => R b t
    | (.error e, t) => E e t
  unfold Effect.bind
  split at hfirst
  · next a t _ => exact hf a t hfirst
  · exact hfirst

/-- Reading the state: the rest of the program starts in the state that was read. -/
theorem triple_get_bind {f : σ → Effect σ ε β} (h : ∀ s, P s → Triple (· = s) (f s) R E) :
    Triple P (get >>= f) R E := fun s hs => h s hs s rfl

theorem triple_modify_bind {f : σ → σ} {g : Unit → Effect σ ε β} {s : σ} (h : Triple (· = f s) (g ()) R E) :
    Triple (· = s) (modify f >>= g) R E := by
  rintro _ rfl
  exact h _ rfl

theorem triple_return {a : α} {s : σ} (h : Q a s) : Triple (· = s) (pure a : Effect σ ε α) Q E := by
  rintro _ rfl
  exact h

theorem triple_raise_at {e : ε} {s : σ} (h : E e s) : Triple (· = s) (raise e : Effect σ ε α) Q E := by
  rintro _ rfl
  exact h

theorem triple_modify_return {f : σ → σ} {a : α} {s : σ} (h : Q a (f s)) :
    Triple (· = s) (modify f >>= fun _ => (pure a : Effect σ ε α)) Q E := triple_modify_bind (triple_return h)

theorem triple_modify_raise {f : σ → σ} {e : ε} {s : σ} (h : E e (f s)) :
    Triple (· = s) (modify f >>= fun _ => (raise e : Effect σ ε α)) Q E := triple_modify_bind (triple_raise_at h)

/-- What the precondition says may be used while the program is run from one state. -/
theorem triple_of_forall (h : ∀ s, P s → Triple (· = s) m Q E) : Triple P m Q E := fun s hs => h s hs s rfl

theorem triple_weaken (h : Triple P m Q E) (hP : ∀ s, P' s → P s) (hQ : ∀ a s, Q a s → Q' a s)
    (hE : ∀ e s, E e s → E' e s) : Triple P' m Q' E' := by
  intro s hs
  have hrun := h s (hP s hs)
  split at hrun
  · next a t _ => exact hQ a t hrun
  · next e t _ => exact hE e t hrun

/-- One state of the precondition. -/
theorem triple_at {s : σ} (h : Triple P m Q E) (hs : P s) : Triple (· = s) m Q E := by
  rintro _ rfl
  exact h _ hs

theorem triple_mono (h : Triple P m Q E) (hQ : ∀ a s, Q a s → Q' a s) (hE : ∀ e s, E e s → E' e s) :
    Triple P m Q' E' := triple_weaken h (fun _ h => h) hQ hE

theorem triple_error (h : Triple P m Q E) (hE : ∀ e s, E e s → E' e s) : Triple P m Q E' :=
  triple_mono h (fun _ _ h => h) hE

theorem triple_ite {c : Prop} [Decidable c] (hthen : c → Triple P m Q E) (helse : ¬ c → Triple P m' Q E) :
    Triple P (if c then m else m') Q E := by
  split
  · next h => exact hthen h
  · next h => exact helse h

theorem triple_handle {handler : ε → Effect σ ε' α} {E' : ε' → σ → Prop} (hm : Triple P m Q E)
    (hhandler : ∀ e, Triple (E e) (handler e) Q E') : Triple P (handle m handler) Q E' := by
  intro s hs
  have hrun := hm s hs
  unfold handle
  split at hrun
  · exact hrun
  · next e t _ => exact hhandler e t hrun

/-- Two specifications of one program hold together. -/
theorem triple_and (h : Triple P m Q E) (h' : Triple P m Q' E') :
    Triple P m (fun a s => Q a s ∧ Q' a s) (fun e s => E e s ∧ E' e s) := by
  intro s hs
  have hfirst := h s hs
  have hsecond := h' s hs
  split at hfirst
  · next heq =>
    rw [heq] at hsecond
    exact ⟨hfirst, hsecond⟩
  · next heq =>
    rw [heq] at hsecond
    exact ⟨hfirst, hsecond⟩

/-- A loop keeps an invariant about the state and the elements left. -/
theorem triple_each {f : α → Effect σ ε Unit} {I : List α → σ → Prop}
    (h : ∀ a rest, Triple (I (a :: rest)) (f a) (fun _ => I rest) E) (list : List α) :
    Triple (I list) (each f list) (fun _ => I []) E := by
  induction list with
  | nil => exact triple_pure fun _ hs => hs
  | cons a rest ih => exact triple_bind (h a rest) fun _ => ih

theorem each_modify (f : α → σ → σ) (list : List α) (s : σ) :
    each (fun a => (modify (f a) : Effect σ ε Unit)) list s = (.ok (), list.foldl (fun s a => f a s) s) := by
  induction list generalizing s with
  | nil => rfl
  | cons a rest ih => exact ih (f a s)

/-- A loop of changes that cannot raise. -/
theorem triple_each_modify {f : α → σ → σ} {Q : Unit → σ → Prop} {list : List α}
    (h : ∀ s, P s → Q () (list.foldl (fun s a => f a s) s)) : Triple P (each (fun a => modify (f a)) list) Q E := by
  intro s hs
  rw [each_modify]
  exact h s hs

/-- A program that is known to return. -/
theorem triple_of_eq {f : σ → σ} {a : α} (hm : ∀ s, P s → m s = (.ok a, f s)) (h : ∀ s, P s → Q a (f s)) :
    Triple P m Q E := by
  intro s hs
  rw [hm s hs]
  exact h s hs

/-! ### Checks -/

/-- A program that leaves the state alone: `φ` holds of what it returns and `ψ` of what it raises. -/
def Checks (s : σ) (m : Effect σ ε α) (φ : α → Prop) (ψ : ε → Prop) : Prop :=
  Triple (· = s) m (fun a t => t = s ∧ φ a) (fun e t => t = s ∧ ψ e)

variable {s : σ} {φ : α → Prop} {ψ : ε → Prop}

theorem checks_pure {a : α} (h : φ a) : Checks s (pure a : Effect σ ε α) φ ψ := triple_pure fun _ ht => ⟨ht, h⟩

theorem checks_raise {e : ε} (h : ψ e) : Checks s (raise e : Effect σ ε α) φ ψ := triple_raise fun _ ht => ⟨ht, h⟩

theorem checks_get_bind {f : σ → Effect σ ε α} (h : Checks s (f s) φ ψ) : Checks s (get >>= f) φ ψ := by
  apply triple_get_bind
  rintro _ rfl
  exact h

theorem checks_ite {c : Prop} [Decidable c] (hthen : c → Checks s m φ ψ) (helse : ¬ c → Checks s m' φ ψ) :
    Checks s (if c then m else m') φ ψ := triple_ite hthen helse

/-- `if not condition: raise` -/
theorem checks_guard {p : σ → Prop} [DecidablePred p] {e : σ → ε} (h : p s) :
    Checks s (get >>= fun s => if p s then pure () else raise (e s)) (fun _ => True) (fun _ => False) := by
  apply checks_get_bind
  rw [if_pos h]
  exact checks_pure trivial

theorem Checks.weaken {φ' : α → Prop} {ψ' : ε → Prop} (h : Checks s m φ ψ) (hφ : ∀ a, φ a → φ' a)
    (hψ : ∀ e, ψ e → ψ' e) : Checks s m φ' ψ' :=
  triple_mono h (fun a _ h => ⟨h.1, hφ a h.2⟩) (fun e _ h => ⟨h.1, hψ e h.2⟩)

/-- The rest of a program may use what a check established. -/
theorem triple_check_bind (hm : Checks s m φ ψ) (hE : ∀ e, ψ e → E e s) (hf : ∀ a, φ a → Triple (· = s) (f a) R E) :
    Triple (· = s) (m >>= f) R E := by
  apply triple_bind
  · refine triple_error hm ?_
    rintro e t ⟨rfl, he⟩
    exact hE e he
  · rintro a t ⟨ht, ha⟩
    exact hf a ha t ht

theorem checks_bind {φ' : β → Prop} (hm : Checks s m φ ψ) (hf : ∀ a, φ a → Checks s (f a) φ' ψ) :
    Checks s (m >>= f) φ' ψ := triple_check_bind hm (fun _ he => ⟨rfl, he⟩) hf

theorem checks_each {f : α → Effect σ ε Unit} {list : List α} (h : ∀ a ∈ list, Checks s (f a) (fun _ => φ a) ψ) :
    Checks s (each f list) (fun _ => ∀ a ∈ list, φ a) ψ := by
  induction list with
  | nil => exact checks_pure fun _ ha => absurd ha List.not_mem_nil
  | cons a rest ih =>
    apply triple_check_bind (h a List.mem_cons_self) (fun _ he => ⟨rfl, he⟩)
    intro _ ha
    refine triple_mono (ih fun b hb => h b (List.mem_cons_of_mem _ hb)) ?_ (fun _ _ h => h)
    rintro _ t ⟨ht, hrest⟩
    exact ⟨ht, List.forall_mem_cons.mpr ⟨ha, hrest⟩⟩

/-! ### Programs that keep a property -/

/-- Whether the program returns or raises, the property still holds. -/
def Keeps (I : σ → Prop) (m : Effect σ ε α) : Prop := Triple I m (fun _ => I) (fun _ => I)

variable {I : σ → Prop}

theorem keeps_pure (a : α) : Keeps I (pure a : Effect σ ε α) := triple_pure fun _ h => h

theorem keeps_raise (e : ε) : Keeps I (raise e : Effect σ ε α) := triple_raise fun _ h => h

theorem keeps_get : Keeps I (get : Effect σ ε σ) := triple_get fun _ h => h

theorem keeps_modify {f : σ → σ} (h : ∀ s, I s → I (f s)) : Keeps I (modify f : Effect σ ε Unit) := triple_modify h

theorem keeps_bind (hm : Keeps I m) (hf : ∀ a, Keeps I (f a)) : Keeps I (m >>= f) :=
  triple_bind hm hf

theorem keeps_get_bind {f : σ → Effect σ ε β} (hf : ∀ s, Keeps I (f s)) : Keeps I (get >>= f) := keeps_bind keeps_get hf

theorem keeps_modify_bind {f : σ → σ} {g : Unit → Effect σ ε β} (h : ∀ s, I s → I (f s)) (hg : Keeps I (g ())) :
    Keeps I (modify f >>= g) := keeps_bind (keeps_modify h) fun _ => hg

theorem keeps_ite {c : Prop} [Decidable c] (h : Keeps I m) (h' : Keeps I m') :
    Keeps I (if c then m else m') := triple_ite (fun _ => h) (fun _ => h')

theorem keeps_each {f : α → Effect σ ε Unit} (h : ∀ a, Keeps I (f a)) (list : List α) : Keeps I (each f list) :=
  triple_each (I := fun _ => I) (fun a _ => h a) list

theorem keeps_each_modify {f : α → σ → σ} (h : ∀ a s, I s → I (f a s)) (list : List α) :
    Keeps I (each (fun a => (modify (f a) : Effect σ ε Unit)) list) := keeps_each (fun a => keeps_modify (h a)) list

/-- A check keeps everything. -/
theorem keeps_of_checks {φ : σ → α → Prop} {ψ : σ → ε → Prop} (h : ∀ s, Checks s m (φ s) (ψ s)) : Keeps I m := by
  apply triple_of_forall
  intro s hs
  exact triple_mono (h s) (fun _ _ ht => ht.1 ▸ hs) (fun _ _ ht => ht.1 ▸ hs)

/-- What is kept may be added to a specification. -/
theorem triple_keeping (h : Triple P m Q E) (hk : Keeps I m) :
    Triple (fun s => P s ∧ I s) m (fun a s => Q a s ∧ I s) (fun e s => E e s ∧ I s) :=
  triple_and (triple_weaken h (fun _ h => h.1) (fun _ _ h => h) (fun _ _ h => h))
    (triple_weaken hk (fun _ h => h.2) (fun _ _ h => h) (fun _ _ h => h))

theorem triple_zoom {τ : Type} {view : τ → σ} {put : σ → τ → τ} {P : τ → Prop} {Q : α → τ → Prop} {E : ε → τ → Prop}
    (h : ∀ t, P t → Triple (· = view t) m (fun a s => Q a (put s t)) (fun e s => E e (put s t))) :
    Triple P (zoom view put m) Q E := by
  intro t ht
  have hrun := h t ht (view t) rfl
  unfold zoom
  split at hrun
  · next a s heq =>
    simp only [heq]
    exact hrun
  · next e s heq =>
    simp only [heq]
    exact hrun

end Effect
