import Bslz4ToSparse.Foundation.Loops
import Mathlib.Logic.Function.Basic

/-!
# Loops that may stop, and rounds over several parties

Two loops with the same counters agree when every step of one agrees with the step of the
other. In a round every party takes a turn; when the turn of a party depends on its own state
only, the rounds of all parties are the runs of each of them.
-/

namespace Bslz4ToSparse.Foundation

variable {σ τ ε α : Type}

/-- Both stop with the same error, or both go on in related states. -/
def Agree (R : σ → τ → Prop) : Except ε σ → Except ε τ → Prop
  | .error e, .error e' => e = e'
  | .ok s, .ok t => R s t
  | _, _ => False

namespace Agree

variable {R : σ → τ → Prop}

theorem mono {R' : σ → τ → Prop} {x : Except ε σ} {y : Except ε τ} (h : Agree R x y)
    (hR : ∀ s t, R s t → R' s t) : Agree R' x y := by
  cases x with
  | error e =>
    cases y with
    | error e' => exact h
    | ok t => exact h
  | ok s =>
    cases y with
    | error e => exact h
    | ok t => exact hR s t h

theorem refl (x : Except ε σ) : Agree (· = ·) x x := by
  cases x with
  | error e => rfl
  | ok s => rfl

theorem bind {σ' τ' : Type} {R' : σ' → τ' → Prop} {x : Except ε σ} {y : Except ε τ}
    {f : σ → Except ε σ'} {g : τ → Except ε τ'} (h : Agree R x y)
    (hfg : ∀ s t, R s t → Agree R' (f s) (g t)) : Agree R' (x >>= f) (y >>= g) := by
  cases x with
  | error e =>
    cases y with
    | error e' => exact h
    | ok t => exact h.elim
  | ok s =>
    cases y with
    | error e => exact h.elim
    | ok t => exact hfg s t h

/-- Two continuations of one computation. -/
theorem bind_same {σ' τ' : Type} {R' : σ' → τ' → Prop} (x : Except ε σ) {f : σ → Except ε σ'}
    {g : σ → Except ε τ'} (hfg : ∀ s, Agree R' (f s) (g s)) : Agree R' (x >>= f) (x >>= g) := by
  apply (Agree.refl x).bind
  rintro s _ rfl
  exact hfg s

theorem map_right {ρ : Type} {R' : σ → ρ → Prop} {x : Except ε σ} {y : Except ε τ} {k : τ → ρ}
    (h : Agree R x y) (hk : ∀ s t, R s t → R' s (k t)) : Agree R' x (y.map k) := by
  cases x with
  | error e =>
    cases y with
    | error e' => exact h
    | ok t => exact h.elim
  | ok s =>
    cases y with
    | error e => exact h.elim
    | ok t => exact hk s t h

/-- What is known of a result besides. -/
theorem of_ok {P : σ → Prop} {x : Except ε σ} {y : Except ε τ} (h : Agree R x y)
    (hP : ∀ s, x = .ok s → P s) : Agree (fun s t => R s t ∧ P s) x y := by
  cases x with
  | error e =>
    cases y with
    | error e' => exact h
    | ok t => exact h.elim
  | ok s =>
    cases y with
    | error e' => exact h.elim
    | ok t => exact ⟨h, hP s rfl⟩

theorem ok_left {s : σ} {y : Except ε τ} (h : Agree R (.ok s) y) : ∃ t, y = .ok t ∧ R s t := by
  cases y with
  | error e => exact h.elim
  | ok t => exact ⟨t, rfl, h⟩

theorem ok_right {x : Except ε σ} {t : τ} (h : Agree R x (.ok t)) : ∃ s, x = .ok s ∧ R s t := by
  cases x with
  | error e => exact h.elim
  | ok s => exact ⟨s, rfl, h⟩

theorem error_left {e : ε} {y : Except ε τ} (h : Agree R (.error e) y) : y = .error e := by
  cases y with
  | error e' => exact congrArg Except.error (Eq.symm h)
  | ok t => exact h.elim

end Agree

/-- A computation stops with such errors only. -/
def Fails (P : ε → Prop) : Except ε σ → Prop
  | .error e => P e
  | .ok _ => True

namespace Fails

variable {P : ε → Prop}

theorem ok (s : σ) : Fails P (.ok s : Except ε σ) := trivial

theorem bind {x : Except ε σ} {f : σ → Except ε τ} (hx : Fails P x) (hf : ∀ s, Fails P (f s)) :
    Fails P (x >>= f) := by
  cases x with
  | error e => exact hx
  | ok s => exact hf s

theorem of_eq {x : Except ε σ} {e : ε} (h : Fails P x) (he : x = .error e) : P e := by
  subst he
  exact h

end Fails

/-- One step more of a loop. -/
theorem foldlM_range_succ (f : σ → Nat → Except ε σ) (n : Nat) (s : σ) :
    (List.range (n + 1)).foldlM f s = ((List.range n).foldlM f s).bind fun s => f s n := by
  rw [List.range_succ, List.foldlM_append]
  refine congrArg (Except.bind _) (funext fun s => ?_)
  rw [List.foldlM_cons]
  cases f s n with
  | error e => rfl
  | ok s' => rfl

theorem bind_eq_ok {x : Except ε σ} {f : σ → Except ε τ} {t : τ} :
    x.bind f = .ok t ↔ ∃ s, x = .ok s ∧ f s = .ok t := by
  cases x with
  | error e => simp [Except.bind]
  | ok s => simp [Except.bind]

theorem bind_eq_error {x : Except ε σ} {f : σ → Except ε τ} {e : ε} :
    x.bind f = .error e ↔ x = .error e ∨ ∃ s, x = .ok s ∧ f s = .error e := by
  cases x with
  | error e' => simp [Except.bind]
  | ok s => simp [Except.bind]

/-- Steps that leave the state as it is. -/
theorem foldlM_range_idle {f : σ → Nat → Except ε σ} {n : Nat} {s : σ}
    (h : ∀ k, k < n → f s k = .ok s) : (List.range n).foldlM f s = .ok s := by
  induction n with
  | zero => rfl
  | succ n ih =>
    rw [foldlM_range_succ, ih fun k hk => h k (by omega)]
    exact h n (Nat.lt_succ_self n)

/-- A loop stops at one of its steps. -/
theorem foldlM_range_error {f : σ → Nat → Except ε σ} {n : Nat} {s : σ} {e : ε}
    (h : (List.range n).foldlM f s = .error e) :
    ∃ k s', k < n ∧ (List.range k).foldlM f s = .ok s' ∧ f s' k = .error e := by
  induction n with
  | zero => cases h
  | succ n ih =>
    rw [foldlM_range_succ] at h
    rcases bind_eq_error.mp h with hn | ⟨m, hm, hlast⟩
    · obtain ⟨k, s', hk, hrest⟩ := ih hn
      exact ⟨k, s', by omega, hrest⟩
    · exact ⟨n, m, Nat.lt_succ_self n, hm, hlast⟩

/-- A loop that went through has taken each of its steps. -/
theorem foldlM_range_step {f : σ → Nat → Except ε σ} {n k : Nat} {s s' : σ} (hk : k < n)
    (h : (List.range n).foldlM f s = .ok s') :
    ∃ m m', (List.range k).foldlM f s = .ok m ∧ f m k = .ok m' := by
  induction n generalizing s' with
  | zero => exact absurd hk (Nat.not_lt_zero k)
  | succ n ih =>
    rw [foldlM_range_succ] at h
    obtain ⟨m, hm, hlast⟩ := bind_eq_ok.mp h
    rcases Nat.lt_or_eq_of_le (Nat.le_of_lt_succ hk) with hlt | rfl
    · exact ih hlt hm
    · exact ⟨m, s', hm, hlast⟩

/-- The rule for two loops with the same counters. -/
theorem foldlM_range_agree {f : σ → Nat → Except ε σ} {g : τ → Nat → Except ε τ} {n : Nat}
    (R : Nat → σ → τ → Prop) {s : σ} {t : τ} (h : R 0 s t)
    (hstep : ∀ k, k < n → ∀ s t, R k s t → Agree (R (k + 1)) (f s k) (g t k)) :
    Agree (R n) ((List.range n).foldlM f s) ((List.range n).foldlM g t) := by
  induction n with
  | zero => exact h
  | succ n ih =>
    rw [foldlM_range_succ, foldlM_range_succ]
    apply Agree.bind (ih fun k hk => hstep k (by omega))
    intro s t hst
    exact hstep n (Nat.lt_succ_self n) s t hst

/-- What a loop that went through keeps. -/
theorem foldlM_range_induct {f : σ → Nat → Except ε σ} {n : Nat} (I : Nat → σ → Prop) {s s' : σ}
    (h : I 0 s) (hstep : ∀ k, k < n → ∀ s s', I k s → f s k = .ok s' → I (k + 1) s')
    (hrun : (List.range n).foldlM f s = .ok s') : I n s' := by
  induction n generalizing s' with
  | zero =>
    obtain rfl := Except.ok.inj hrun
    exact h
  | succ n ih =>
    rw [foldlM_range_succ] at hrun
    obtain ⟨m, hm, hlast⟩ := bind_eq_ok.mp hrun
    exact hstep n (Nat.lt_succ_self n) m s' (ih (fun k hk => hstep k (by omega)) hm) hlast

/-! ## Rounds -/

/-- The turn of party `f`. -/
def turn (step : Nat → σ → Except ε σ) (a : Nat → σ) (f : Nat) : Except ε (Nat → σ) :=
  (step f (a f)).map (Function.update a f)

/-- Every one of `n` parties takes a turn. -/
def round (n : Nat) (step : Nat → σ → Except ε σ) (a : Nat → σ) : Except ε (Nat → σ) :=
  (List.range n).foldlM (turn step) a

theorem turn_ok {step : Nat → σ → Except ε σ} {a a' : Nat → σ} {f : Nat} :
    turn step a f = .ok a' ↔ ∃ x, step f (a f) = .ok x ∧ a' = Function.update a f x := by
  unfold turn
  cases step f (a f) with
  | error e => simp [Except.map]
  | ok x => simp [Except.map, eq_comm]

/-- Of a round every party has had its turn, and nobody else. -/
theorem round_ok {n : Nat} {step : Nat → σ → Except ε σ} {a a' : Nat → σ} :
    round n step a = .ok a' ↔
      (∀ f, f < n → step f (a f) = .ok (a' f)) ∧ ∀ f, n ≤ f → a' f = a f := by
  unfold round
  induction n generalizing a' with
  | zero =>
    constructor
    · intro h
      obtain rfl := Except.ok.inj h
      exact ⟨fun f hf => absurd hf (Nat.not_lt_zero f), fun _ _ => rfl⟩
    · rintro ⟨-, h⟩
      obtain rfl : a = a' := funext fun f => (h f (Nat.zero_le f)).symm
      rfl
  | succ n ih =>
    rw [foldlM_range_succ, bind_eq_ok]
    constructor
    · rintro ⟨m, hm, hlast⟩
      obtain ⟨hdone, hrest⟩ := ih.mp hm
      obtain ⟨x, hx, rfl⟩ := turn_ok.mp hlast
      rw [hrest n le_rfl] at hx
      constructor
      · intro f hf
        rcases Nat.lt_or_ge f n with hlt | hge
        · rw [Function.update_of_ne (by omega)]
          exact hdone f hlt
        · obtain rfl : f = n := by omega
          rw [Function.update_self]
          exact hx
      · intro f hf
        rw [Function.update_of_ne (by omega)]
        exact hrest f (by omega)
    · rintro ⟨hdone, hrest⟩
      refine ⟨fun f => if f < n then a' f else a f, ih.mpr ⟨fun f hf => ?_, fun f hf => ?_⟩, ?_⟩
      · rw [if_pos hf]
        exact hdone f (by omega)
      · exact if_neg (by omega)
      · refine turn_ok.mpr ⟨a' n, ?_, funext fun f => ?_⟩
        · rw [if_neg (Nat.lt_irrefl n)]
          exact hdone n (Nat.lt_succ_self n)
        · by_cases hf : f = n
          · subst hf
            rw [Function.update_self]
          · rw [Function.update_of_ne hf]
            split
            · rfl
            · exact hrest f (by omega)

/-- `c` rounds, one after another. -/
def rounds (n c : Nat) (step : Nat → Nat → σ → Except ε σ) (a : Nat → σ) : Except ε (Nat → σ) :=
  (List.range c).foldlM (fun a b => round n (step b) a) a

/-- The `c` turns of party `f`. -/
def turns (c : Nat) (step : Nat → Nat → σ → Except ε σ) (f : Nat) (x : σ) : Except ε σ :=
  (List.range c).foldlM (fun x b => step b f x) x

theorem turns_succ (c : Nat) (step : Nat → Nat → σ → Except ε σ) (f : Nat) (x : σ) :
    turns (c + 1) step f x = (turns c step f x).bind (step c f) := foldlM_range_succ _ _ _

theorem rounds_succ (n c : Nat) (step : Nat → Nat → σ → Except ε σ) (a : Nat → σ) :
    rounds n (c + 1) step a = (rounds n c step a).bind (round n (step c)) := foldlM_range_succ _ _ _

/-- `x` is what each of `n` parties comes to alone. -/
def Apart (n : Nat) (a : Nat → σ) (alone : Nat → Except ε σ) (x : Except ε (Nat → σ)) : Prop :=
  ∀ a', x = .ok a' ↔ (∀ f, f < n → alone f = .ok (a' f)) ∧ ∀ f, n ≤ f → a' f = a f

/-- One round more. -/
theorem Apart.round {n : Nat} {a : Nat → σ} {alone : Nat → Except ε σ} {x : Except ε (Nat → σ)}
    (h : Apart n a alone x) (step : Nat → σ → Except ε σ) :
    Apart n a (fun f => (alone f).bind (step f)) (x.bind (Foundation.round n step)) := by
  intro a'
  rw [bind_eq_ok]
  constructor
  · intro hx
    obtain ⟨m, hm, hround⟩ := hx
    obtain ⟨halone, hmrest⟩ := (h m).mp hm
    obtain ⟨hlast, hrest⟩ := round_ok.mp hround
    refine ⟨fun f hf => ?_, fun f hf => (hrest f hf).trans (hmrest f hf)⟩
    exact bind_eq_ok.mpr ⟨m f, halone f hf, hlast f hf⟩
  · intro hx
    obtain ⟨hall, hrest⟩ := hx
    have hmid : ∀ f, f < n → ∃ y, alone f = .ok y ∧ step f y = .ok (a' f) := fun f hf =>
      bind_eq_ok.mp (hall f hf)
    choose m hm hlast using hmid
    refine ⟨fun f => if hf : f < n then m f hf else a f, (h _).mpr ⟨fun f hf => ?_, fun f hf => ?_⟩,
      round_ok.mpr ⟨fun f hf => ?_, fun f hf => ?_⟩⟩
    · rw [dif_pos hf]
      exact hm f hf
    · exact dif_neg (by omega)
    · rw [dif_pos hf]
      exact hlast f hf
    · rw [dif_neg (by omega)]
      exact hrest f hf

/-- The rounds are the turns of each party. -/
theorem rounds_apart (n c : Nat) (step : Nat → Nat → σ → Except ε σ) (a : Nat → σ) :
    Apart n a (fun f => turns c step f (a f)) (rounds n c step a) := by
  induction c with
  | zero =>
    intro a'
    constructor
    · intro h
      obtain rfl := Except.ok.inj h
      exact ⟨fun _ _ => rfl, fun _ _ => rfl⟩
    · intro h
      obtain ⟨hall, hrest⟩ := h
      obtain rfl : a = a' := by
        funext f
        rcases Nat.lt_or_ge f n with hf | hf
        · exact Except.ok.inj (hall f hf)
        · exact (hrest f hf).symm
      rfl
  | succ c ih =>
    simp only [rounds_succ, turns_succ]
    exact ih.round (step c)

end Bslz4ToSparse.Foundation
