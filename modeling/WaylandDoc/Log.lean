/-!
# Logging

Levels from the most to the least severe. `Logged ν ε α` is a computation that writes notices of
type `ν` and then gives a value or fails; what was written before a failure is kept.
-/

namespace WaylandDoc

section Results

variable {ε ε' α β : Type}

/-- A sequence of two steps gives a value if both do. -/
@[simp] theorem bind_eq_ok {x : Except ε α} {f : α → Except ε β} {b : β} :
    (x >>= f) = .ok b ↔ ∃ a, x = .ok a ∧ f a = .ok b := by
  cases x <;> simp [Bind.bind, Except.bind]

/-- A sequence of two steps fails in the first or after it. -/
theorem bind_eq_error {x : Except ε α} {f : α → Except ε β} {e : ε} :
    (x >>= f) = .error e ↔ x = .error e ∨ ∃ a, x = .ok a ∧ f a = .error e := by
  cases x <;> simp [Bind.bind, Except.bind]

@[simp] theorem map_eq_ok {x : Except ε α} {f : α → β} {b : β} :
    (f <$> x) = .ok b ↔ ∃ a, x = .ok a ∧ f a = b := by
  cases x <;> simp [Functor.map, Except.map]

@[simp] theorem pure_eq_ok {a b : α} : (pure a : Except ε α) = .ok b ↔ a = b := by
  simp [Pure.pure, Except.pure]

@[simp] theorem mapError_eq_ok {f : ε → ε'} {x : Except ε α} {a : α} :
    x.mapError f = .ok a ↔ x = .ok a := by
  cases x <;> constructor <;> intro h <;> cases h <;> rfl

theorem mapError_eq_error {f : ε → ε'} {x : Except ε α} {e' : ε'} :
    x.mapError f = .error e' ↔ ∃ e, x = .error e ∧ f e = e' := by
  cases x with
  | error e => exact ⟨fun h => ⟨e, rfl, Except.error.inj h⟩, by rintro ⟨_, ⟨⟩, rfl⟩; rfl⟩
  | ok a =>
    constructor
    · rintro ⟨⟩
    · rintro ⟨_, ⟨⟩, -⟩

theorem toOption_eq_some {x : Except ε α} {a : α} : x.toOption = some a ↔ x = .ok a := by
  cases x <;> simp [Except.toOption]

end Results

inductive Level where
  | error
  | warn
  | info
  | debug
  | trace
  deriving DecidableEq, Repr

namespace Level

def name : Level → String
  | error => "ERROR"
  | warn => "WARN"
  | info => "INFO"
  | debug => "DEBUG"
  | trace => "TRACE"

/-- Severe levels have a low rank. -/
def rank : Level → Nat
  | error => 0
  | warn => 1
  | info => 2
  | debug => 3
  | trace => 4

/-- With `threshold` set, records of level `l` are shown. -/
def shows (threshold l : Level) : Bool := l.rank ≤ threshold.rank

/-- From the most to the least severe. -/
def bySeverity : List Level := [error, warn, info, debug, trace]

theorem rank_lt_iff {l l' : Level} : l.rank < l'.rank ↔ [l, l'].Sublist bySeverity := by
  cases l <;> cases l' <;> decide

theorem rank_inj {l l' : Level} : l.rank = l'.rank ↔ l = l' := by
  cases l <;> cases l' <;> decide

/-- The threshold itself is shown, and what comes before it in the order. -/
theorem shows_iff {threshold l : Level} :
    threshold.shows l ↔ l = threshold ∨ [l, threshold].Sublist bySeverity := by
  rw [shows, decide_eq_true_iff, Nat.le_iff_lt_or_eq, rank_lt_iff, rank_inj, or_comm]

end Level

structure Logged (ν ε α : Type) where
  notices : List ν
  result : Except ε α

namespace Logged

variable {ν ε ε' α β : Type}

def note (ns : List ν) : Logged ν ε Unit := ⟨ns, .ok ()⟩

def fail (e : ε) : Logged ν ε α := ⟨[], .error e⟩

def ofExcept (r : Except ε α) : Logged ν ε α := ⟨[], r⟩

def bind (x : Logged ν ε α) (f : α → Logged ν ε β) : Logged ν ε β :=
  match x.result with
  | .ok a => ⟨x.notices ++ (f a).notices, (f a).result⟩
  | .error e => ⟨x.notices, .error e⟩

def mapError (f : ε → ε') (x : Logged ν ε α) : Logged ν ε' α :=
  ⟨x.notices, x.result.mapError f⟩

instance : Monad (Logged ν ε) where
  pure a := ⟨[], .ok a⟩
  bind := bind

instance : MonadLift (Except ε) (Logged ν ε) where
  monadLift := ofExcept

instance : LawfulMonad (Logged ν ε) := .mk' _
  (fun ⟨_, result⟩ => by cases result <;> simp [Functor.map, bind])
  (fun a f => by simp [Bind.bind, pure, bind])
  (fun ⟨_, result⟩ f g => by
    cases result with
    | error e => rfl
    | ok a =>
      simp only [Bind.bind, bind]
      cases (f a).result <;> simp)

/-! ## Results -/

theorem eq_mk_iff {x : Logged ν ε α} {ns : List ν} {r : Except ε α} :
    x = ⟨ns, r⟩ ↔ x.notices = ns ∧ x.result = r := by
  cases x
  simp

@[simp] theorem result_pure (a : α) : (pure a : Logged ν ε α).result = .ok a := rfl

@[simp] theorem result_note (ns : List ν) : (note ns : Logged ν ε Unit).result = .ok () := rfl

@[simp] theorem result_fail (e : ε) : (fail e : Logged ν ε α).result = .error e := rfl

@[simp] theorem result_ofExcept (r : Except ε α) : (ofExcept r : Logged ν ε α).result = r := rfl

@[simp] theorem result_monadLift (r : Except ε α) :
    (monadLift r : Logged ν ε α).result = r := rfl

@[simp] theorem result_mapError (f : ε → ε') (x : Logged ν ε α) :
    (x.mapError f).result = x.result.mapError f := rfl

theorem result_bind (x : Logged ν ε α) (f : α → Logged ν ε β) :
    (x >>= f).result = x.result >>= fun a => (f a).result := by
  simp only [Bind.bind, bind]
  cases x.result <;> rfl

/-- A computation gives a value if its parts do. -/
@[simp] theorem result_bind_eq_ok {x : Logged ν ε α} {f : α → Logged ν ε β} {b : β} :
    (x >>= f).result = .ok b ↔ ∃ a, x.result = .ok a ∧ (f a).result = .ok b := by
  rw [result_bind]
  cases x.result <;> simp [Bind.bind, Except.bind]

/-- A computation fails in its first part or after it. -/
theorem result_bind_eq_error {x : Logged ν ε α} {f : α → Logged ν ε β} {e : ε} :
    (x >>= f).result = .error e ↔
      x.result = .error e ∨ ∃ a, x.result = .ok a ∧ (f a).result = .error e := by
  rw [result_bind, bind_eq_error]

theorem bind_of_ok {x : Logged ν ε α} {a : α} (h : x.result = .ok a) (f : α → Logged ν ε β) :
    x >>= f = ⟨x.notices ++ (f a).notices, (f a).result⟩ := by
  simp only [Bind.bind, bind, h]

/-- What would come after a failure is not done. -/
theorem bind_of_error {x : Logged ν ε α} {e : ε} (h : x.result = .error e)
    (f : α → Logged ν ε β) : x >>= f = ⟨x.notices, .error e⟩ := by
  simp only [Bind.bind, bind, h]

/-- Only what comes after a value counts. -/
theorem bind_congr_of_ok {x : Logged ν ε α} {f g : α → Logged ν ε β}
    (h : ∀ a, x.result = .ok a → f a = g a) : x >>= f = x >>= g := by
  cases hx : x.result with
  | error e => rw [bind_of_error hx, bind_of_error hx]
  | ok a => rw [bind_of_ok hx, bind_of_ok hx, h a hx]

theorem map_mk (f : α → β) (ns : List ν) (x : Except ε α) :
    f <$> (⟨ns, x⟩ : Logged ν ε α) = ⟨ns, f <$> x⟩ := by
  rw [map_eq_pure_bind]
  cases x with
  | error e => rfl
  | ok a => rw [bind_of_ok rfl]; simp [pure, Functor.map, Except.map]

theorem notices_map (f : α → β) (x : Logged ν ε α) : (f <$> x).notices = x.notices := by
  obtain ⟨ns, r⟩ := x
  rw [map_mk]

theorem ofExcept_map (f : α → β) (x : Except ε α) :
    (ofExcept (f <$> x) : Logged ν ε β) = f <$> ofExcept x := (map_mk f [] x).symm

theorem monadLift_map (f : α → β) (x : Except ε α) :
    (monadLift (f <$> x) : Logged ν ε β) = f <$> (monadLift x : Logged ν ε α) := ofExcept_map f x

theorem notices_bind_of_ok {x : Logged ν ε α} {a : α} (h : x.result = .ok a)
    (f : α → Logged ν ε β) : (x >>= f).notices = x.notices ++ (f a).notices := by
  rw [bind_of_ok h]

/-- What a sequence of two steps writes and gives if both give a value. -/
theorem bind_eq_ok_iff {x : Logged ν ε α} {f : α → Logged ν ε β} {ns : List ν} {b : β} :
    x >>= f = ⟨ns, .ok b⟩ ↔
      ∃ ns₁ a ns₂, x = ⟨ns₁, .ok a⟩ ∧ f a = ⟨ns₂, .ok b⟩ ∧ ns = ns₁ ++ ns₂ := by
  constructor
  · intro h
    obtain ⟨a, ha, hb⟩ := result_bind_eq_ok.1 (eq_mk_iff.1 h).2
    rw [bind_of_ok ha] at h
    exact ⟨_, a, _, eq_mk_iff.2 ⟨rfl, ha⟩, eq_mk_iff.2 ⟨rfl, hb⟩, (eq_mk_iff.1 h).1.symm⟩
  · rintro ⟨ns₁, a, ns₂, rfl, hf, rfl⟩
    rw [bind_of_ok rfl, hf]

theorem map_eq_ok_iff {x : Logged ν ε α} {f : α → β} {ns : List ν} {b : β} :
    f <$> x = ⟨ns, .ok b⟩ ↔ ∃ a, x = ⟨ns, .ok a⟩ ∧ f a = b := by
  obtain ⟨ms, r⟩ := x
  simp [map_mk, and_assoc, exists_and_left]

@[simp] theorem result_map_eq_ok {x : Logged ν ε α} {f : α → β} {b : β} :
    (f <$> x).result = .ok b ↔ ∃ a, x.result = .ok a ∧ f a = b := by
  rw [map_eq_pure_bind, result_bind_eq_ok]
  simp

end Logged

end WaylandDoc
