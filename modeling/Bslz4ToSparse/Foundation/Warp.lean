import Mathlib.Algebra.Order.BigOperators.Group.Finset
import Mathlib.Data.Fintype.Basic
import Mathlib.Logic.Relation

/-!
# Threads and a barrier

The threads of a warp share one memory. They run in any order, one access at a time, and a
thread that comes to a barrier waits until all of them have. When what is stored between two
barriers is read by none of the threads and stored by one of them only, the order does not
matter: every thread reads what the memory held at the barrier.
-/

namespace Bslz4ToSparse.Foundation

variable {τ ι α β γ : Type}

/-- A thread that comes to a `β`. One that fails is never done. -/
inductive Thread (ι α β : Type) where
  | done (b : β)
  | read (i : ι) (next : α → Thread ι α β)
  | store (i : ι) (v : α) (next : Thread ι α β)
  | sync (next : Thread ι α β)
  | fail

namespace Thread

def bind : Thread ι α β → (β → Thread ι α γ) → Thread ι α γ
  | .done b, f => f b
  | .read i next, f => .read i fun v => (next v).bind f
  | .store i v next, f => .store i v (next.bind f)
  | .sync next, f => .sync (next.bind f)
  | .fail, _ => .fail

instance : Monad (Thread ι α) where
  pure := .done
  bind := .bind

/-- Read a cell. -/
def get (i : ι) : Thread ι α α := .read i .done

/-- Store to a cell. -/
def put (i : ι) (v : α) : Thread ι α Unit := .store i v (.done ())

/-- Read cells one after the other. -/
def gets : List ι → Thread ι α (List α)
  | [] => .done []
  | i :: l => do
      let v ← get i
      let vs ← gets l
      return v :: vs

/-- Stores one after the other. -/
def puts : List (ι × α) → Thread ι α Unit
  | [] => .done ()
  | (i, v) :: l => .store i v (puts l)

/-- Wait for the other threads. -/
def barrier : Thread ι α Unit := .sync (.done ())

/-- The access a thread is about to make, and whether it is a store. -/
def access : Thread ι α β → Option (ι × Bool)
  | .read i _ => some (i, false)
  | .store i _ _ => some (i, true)
  | _ => none

/-- The accesses of a thread up to its next barrier, when it reads `mem`. -/
def length (mem : ι → α) : Thread ι α β → Nat
  | .read i next => (next (mem i)).length mem + 1
  | .store _ _ next => next.length mem + 1
  | _ => 0

theorem pure_def (b : β) : (pure b : Thread ι α β) = .done b := rfl

@[simp] theorem done_bind (b : β) (f : β → Thread ι α γ) : Thread.done b >>= f = f b := rfl

@[simp] theorem read_bind (i : ι) (next : α → Thread ι α β) (f : β → Thread ι α γ) :
    Thread.read i next >>= f = .read i fun v => next v >>= f := rfl

@[simp] theorem store_bind (i : ι) (v : α) (next : Thread ι α β) (f : β → Thread ι α γ) :
    Thread.store i v next >>= f = .store i v (next >>= f) := rfl

@[simp] theorem sync_bind (next : Thread ι α β) (f : β → Thread ι α γ) :
    Thread.sync next >>= f = .sync (next >>= f) := rfl

@[simp] theorem barrier_bind (f : Unit → Thread ι α γ) : barrier >>= f = Thread.sync (f ()) := rfl

/-- Two threads are about to access one cell, and one of them stores. -/
def Races (p : Thread ι α β) (q : Thread ι α γ) : Prop :=
  ∃ i a b, p.access = some (i, a) ∧ q.access = some (i, b) ∧ (a || b) = true

end Thread

/-! ## Between two barriers -/

/-- Up to a barrier: `p` reads cells of `R` in `mem`, makes the stores of `log` and comes to `q`. -/
inductive Phase (R : ι → Prop) (mem : ι → α) : Thread ι α β → List (ι × α) → Thread ι α β → Prop
  | refl (p : Thread ι α β) : Phase R mem p [] p
  | read {i : ι} {next : α → Thread ι α β} {log : List (ι × α)} {q : Thread ι α β} (h : R i)
      (hrest : Phase R mem (next (mem i)) log q) : Phase R mem (.read i next) log q
  | store {i : ι} {v : α} {next : Thread ι α β} {log : List (ι × α)} {q : Thread ι α β}
      (hrest : Phase R mem next log q) : Phase R mem (.store i v next) ((i, v) :: log) q

namespace Phase

variable {R : ι → Prop} {mem : ι → α} {p q r : Thread ι α β} {log log' : List (ι × α)}

theorem mono {R' : ι → Prop} (hR : ∀ i, R i → R' i) (h : Phase R mem p log q) : Phase R' mem p log q := by
  induction h with
  | refl p => exact .refl p
  | read h hrest ih => exact .read (hR _ h) ih
  | store hrest ih => exact .store ih

theorem trans (h : Phase R mem p log q) (h' : Phase R mem q log' r) : Phase R mem p (log ++ log') r := by
  induction h with
  | refl p => exact h'
  | read h hrest ih => exact .read h (ih h')
  | store hrest ih => exact .store (ih h')

theorem bind {p q : Thread ι α γ} (h : Phase R mem p log q) (f : γ → Thread ι α β) :
    Phase R mem (p >>= f) log (q >>= f) := by
  induction h with
  | refl p => exact .refl _
  | read h hrest ih => exact .read h ih
  | store hrest ih => exact .store ih

/-- One part of a thread after the other. -/
theorem andThen {p : Thread ι α γ} {b : γ} {f : γ → Thread ι α β} (h : Phase R mem p log (.done b))
    (h' : Phase R mem (f b) log' q) : Phase R mem (p >>= f) (log ++ log') q :=
  (h.bind f).trans h'

/-- A part that stores nothing. -/
theorem andThen_nil {p : Thread ι α γ} {b : γ} {f : γ → Thread ι α β} (h : Phase R mem p [] (.done b))
    (h' : Phase R mem (f b) log q) : Phase R mem (p >>= f) log q :=
  h.andThen h'

theorem get (mem : ι → α) {i : ι} (h : R i) : Phase R mem (Thread.get i) [] (.done (mem i)) :=
  .read h (.refl _)

theorem put (i : ι) (v : α) : Phase R mem (Thread.put i v) [(i, v)] (.done ()) := .store (.refl _)

theorem gets {l : List ι} (h : ∀ i ∈ l, R i) : Phase R mem (Thread.gets l) [] (.done (l.map mem)) := by
  induction l with
  | nil => exact .refl _
  | cons i l ih =>
    exact (get mem (h i List.mem_cons_self)).andThen_nil
      ((ih fun j hj => h j (List.mem_cons_of_mem i hj)).andThen_nil (.refl _))

theorem puts (l : List (ι × α)) : Phase R mem (Thread.puts l) l (.done ()) := by
  induction l with
  | nil => exact .refl _
  | cons s l ih => exact .store ih

/-- A loop that stores one cell per turn, after reading one. -/
theorem copies (dest source : γ → ι) {l : List γ} (h : ∀ x ∈ l, R (source x)) :
    Phase R mem (l.forM fun x => Thread.get (source x) >>= Thread.put (dest x))
      (l.map fun x => (dest x, mem (source x))) (.done ()) := by
  induction l with
  | nil => exact .refl _
  | cons x l ih =>
    have hput : Phase R mem (Thread.get (source x) >>= Thread.put (dest x))
        [(dest x, mem (source x))] (.done ()) :=
      (get mem (h x List.mem_cons_self)).andThen_nil (put _ _)
    exact hput.andThen (ih fun y hy => h y (List.mem_cons_of_mem x hy))

end Phase

/-! ## The warp -/

/-- The threads of a warp and their memory. -/
structure Warp (τ ι α : Type) where
  mem : ι → α
  threads : τ → Thread ι α Unit

variable [DecidableEq τ] [DecidableEq ι]

/-- One thread makes its access, or all of them pass a barrier. -/
inductive Warp.Step : Warp τ ι α → Warp τ ι α → Prop
  | read {w : Warp τ ι α} {t : τ} {i : ι} {next : α → Thread ι α Unit} (h : w.threads t = .read i next) :
      Step w ⟨w.mem, Function.update w.threads t (next (w.mem i))⟩
  | store {w : Warp τ ι α} {t : τ} {i : ι} {v : α} {next : Thread ι α Unit}
      (h : w.threads t = .store i v next) :
      Step w ⟨Function.update w.mem i v, Function.update w.threads t next⟩
  | sync {w : Warp τ ι α} {next : τ → Thread ι α Unit} (h : ∀ t, w.threads t = .sync (next t)) :
      Step w ⟨w.mem, next⟩

/-- All threads are done. -/
def Warp.Done (w : Warp τ ι α) : Prop := ∀ t, w.threads t = .done ()

/-- No thread is about to access a cell outside `A`, and no two of them race. -/
structure Warp.Safe (A : ι → Prop) (w : Warp τ ι α) : Prop where
  bounds : ∀ t i s, (w.threads t).access = some (i, s) → A i
  races : ∀ t u, t ≠ u → ¬ (w.threads t).Races (w.threads u)

/-- In whatever order the threads run, they keep to `A`, do not race, are done in the end and leave a memory
that is `Q`. -/
inductive Warp.Comes (A : ι → Prop) (Q : (ι → α) → Prop) : Warp τ ι α → Prop
  | done {w : Warp τ ι α} (h : w.Done) (hq : Q w.mem) : Comes A Q w
  | step {w : Warp τ ι α} (hsafe : w.Safe A) (hmoves : ∃ w', Step w w')
      (h : ∀ w', Step w w' → Comes A Q w') : Comes A Q w

/-- A done warp does not move. -/
theorem Warp.Done.not_step [Nonempty τ] {w w' : Warp τ ι α} (h : w.Done) : ¬ Step w w' := by
  intro hs
  cases hs with
  | @read t i next hread =>
    rw [h t] at hread
    cases hread
  | @store t i v next hstore =>
    rw [h t] at hstore
    cases hstore
  | @sync next hsync =>
    obtain ⟨t⟩ := ‹Nonempty τ›
    have ht := hsync t
    rw [h t] at ht
    cases ht

theorem Warp.Safe.mono {A A' : ι → Prop} {w : Warp τ ι α} (h : w.Safe A) (hA : ∀ i, A i → A' i) : w.Safe A' :=
  ⟨fun t i s ha => hA i (h.bounds t i s ha), h.races⟩

theorem Warp.Done.safe {A : ι → Prop} {w : Warp τ ι α} (h : w.Done) : w.Safe A := by
  refine ⟨fun t i s ha => ?_, fun t u _ hraces => ?_⟩
  · rw [h t] at ha
    cases ha
  · obtain ⟨i, a, b, ha, -⟩ := hraces
    rw [h t] at ha
    cases ha

namespace Warp.Comes

section

variable [Nonempty τ] {A : ι → Prop} {Q : (ι → α) → Prop} {w w' : Warp τ ι α}

theorem next (h : Comes A Q w) (hs : Step w w') : Comes A Q w' := by
  cases h with
  | done hdone _ => exact absurd hs hdone.not_step
  | step _ _ hnext => exact hnext w' hs

/-- Wherever a run has come to: it is safe there, and it goes on or is done. -/
theorem run (h : Comes A Q w) (hrun : Relation.ReflTransGen Step w w') :
    w'.Safe A ∧ (w'.Done ∧ Q w'.mem ∨ ∃ w'', Step w' w'') := by
  have hend : Comes A Q w' := by
    induction hrun with
    | refl => exact h
    | tail _ hs ih => exact ih.next hs
  cases hend with
  | done hdone hq => exact ⟨hdone.safe, Or.inl ⟨hdone, hq⟩⟩
  | step hsafe hmoves _ => exact ⟨hsafe, Or.inr hmoves⟩

/-- Some run comes to the end. -/
theorem exists_done (h : Comes A Q w) : ∃ w', Relation.ReflTransGen Step w w' ∧ w'.Done ∧ Q w'.mem := by
  induction h with
  | done hdone hq => exact ⟨_, .refl, hdone, hq⟩
  | step _ hmoves _ ih =>
    obtain ⟨w₁, hs⟩ := hmoves
    obtain ⟨w', hrun, hend⟩ := ih w₁ hs
    exact ⟨w', .head hs hrun, hend⟩

/-- No run goes on for ever. -/
theorem ends (h : Comes A Q w) : Acc (fun w₂ w₁ : Warp τ ι α => Step w₁ w₂) w := by
  induction h with
  | done hdone _ => exact .intro _ fun _ hs => absurd hs hdone.not_step
  | step _ _ _ ih => exact .intro _ ih

end

/-! ## From one barrier to the next -/

end Warp.Comes

/-- What the stores of all threads leave in a memory. -/
structure Stored (mem : ι → α) (log : τ → List (ι × α)) (mem' : ι → α) : Prop where
  new : ∀ t, ∀ s ∈ log t, mem' s.1 = s.2
  old : ∀ i, (∀ t, ∀ s ∈ log t, s.1 ≠ i) → mem' i = mem i

/-- The stores between two barriers: none to a cell that is read, and none of two threads to one cell. -/
structure RaceFree (A R : ι → Prop) (log : τ → List (ι × α)) : Prop where
  reads : ∀ i, R i → A i
  stores : ∀ t, ∀ s ∈ log t, A s.1
  unread : ∀ t, ∀ s ∈ log t, ¬ R s.1
  apart : ∀ t u, t ≠ u → ∀ s ∈ log t, ∀ s' ∈ log u, s.1 ≠ s'.1
  agree : ∀ t, ∀ s ∈ log t, ∀ s' ∈ log t, s.1 = s'.1 → s.2 = s'.2

/-- The warp between two barriers: the stores made and those to come. -/
structure Between (R : ι → Prop) (mem : ι → α) (log : τ → List (ι × α)) (q : τ → Thread ι α Unit)
    (w : Warp τ ι α) (made togo : τ → List (ι × α)) : Prop where
  stores : ∀ t, log t = made t ++ togo t
  stored : Stored mem made w.mem
  phase : ∀ t, Phase R mem (w.threads t) (togo t) (q t)

theorem Phase.end_of_access {R : ι → Prop} {mem : ι → α} {p q : Thread ι α β} {log : List (ι × α)}
    (h : Phase R mem p log q) (hp : p.access = none) : p = q ∧ log = [] := by
  cases h with
  | refl => exact ⟨rfl, rfl⟩
  | read => cases hp
  | store => cases hp

theorem Phase.read_inv {R : ι → Prop} {mem : ι → α} {i : ι} {next : α → Thread ι α β} {q : Thread ι α β}
    {log : List (ι × α)} (h : Phase R mem (.read i next) log q) (hq : q.access = none) :
    R i ∧ Phase R mem (next (mem i)) log q := by
  cases h with
  | refl => cases hq
  | read hR hrest => exact ⟨hR, hrest⟩

theorem Phase.store_inv {R : ι → Prop} {mem : ι → α} {i : ι} {v : α} {next q : Thread ι α β}
    {log : List (ι × α)} (h : Phase R mem (.store i v next) log q) (hq : q.access = none) :
    ∃ rest, log = (i, v) :: rest ∧ Phase R mem next rest q := by
  cases h with
  | refl => cases hq
  | store hrest => exact ⟨_, rfl, hrest⟩

/-- One more store. -/
theorem Stored.put {mem mem' : ι → α} {made log : τ → List (ι × α)} (h : Stored mem made mem') {t : τ}
    {i : ι} {v : α} (hmade : ∀ u, ∀ s ∈ made u, s ∈ log u) (hput : (i, v) ∈ log t)
    (hone : ∀ u, ∀ s ∈ log u, s.1 = i → s.2 = v) :
    Stored mem (Function.update made t (made t ++ [(i, v)])) (Function.update mem' i v) where
  new := by
    intro u s hs
    have hold : s ∈ made u ∨ s = (i, v) := by
      by_cases hut : u = t
      · subst hut
        rw [Function.update_self] at hs
        exact (List.mem_append.mp hs).imp_right List.mem_singleton.mp
      · rw [Function.update_of_ne hut] at hs
        exact Or.inl hs
    rcases hold with hs | hs
    · by_cases hi : s.1 = i
      · rw [hi, Function.update_self]
        exact (hone u s (hmade u s hs) hi).symm
      · rw [Function.update_of_ne hi]
        exact h.new u s hs
    · rw [hs]
      exact Function.update_self ..
  old := by
    intro j hj
    have hji : j ≠ i := by
      intro hji
      subst hji
      refine hj t (j, v) ?_ rfl
      rw [Function.update_self]
      exact List.mem_append_right _ List.mem_cons_self
    rw [Function.update_of_ne hji]
    refine h.old j fun u s hs => hj u s ?_
    by_cases hut : u = t
    · subst hut
      rw [Function.update_self]
      exact List.mem_append_left _ hs
    · rwa [Function.update_of_ne hut]

namespace Between

variable {A R : ι → Prop} {mem : ι → α} {log : τ → List (ι × α)} {q : τ → Thread ι α Unit}
  {w w' : Warp τ ι α} {made togo : τ → List (ι × α)}

theorem start {threads : τ → Thread ι α Unit} (h : ∀ t, Phase R mem (threads t) (log t) (q t)) :
    Between R mem log q ⟨mem, threads⟩ (fun _ => []) log :=
  ⟨fun _ => rfl, ⟨fun _ _ hs => absurd hs List.not_mem_nil, fun _ _ => rfl⟩, h⟩

/-- What a thread is about to access. -/
theorem accesses (h : Between R mem log q w made togo) (hends : ∀ t, (q t).access = none) {t : τ} {i : ι}
    {s : Bool} (ha : (w.threads t).access = some (i, s)) :
    s = false ∧ R i ∨ s = true ∧ ∃ v, (i, v) ∈ log t := by
  have hphase := h.phase t
  have hlog := h.stores t
  generalize w.threads t = p at ha hphase
  generalize togo t = l at hlog hphase
  cases hphase with
  | refl =>
    rw [hends t] at ha
    cases ha
  | read hR _ =>
    cases ha
    exact Or.inl ⟨rfl, hR⟩
  | @store _ v _ rest _ _ =>
    cases ha
    exact Or.inr ⟨rfl, v, hlog ▸ List.mem_append_right _ List.mem_cons_self⟩

theorem safe (h : Between R mem log q w made togo) (hends : ∀ t, (q t).access = none)
    (hfree : RaceFree A R log) : w.Safe A := by
  refine ⟨fun t i s ha => ?_, fun t u hne hraces => ?_⟩
  · rcases h.accesses hends ha with ⟨-, hR⟩ | ⟨-, v, hv⟩
    · exact hfree.reads i hR
    · exact hfree.stores t _ hv
  · obtain ⟨i, a, b, ha, hb, hab⟩ := hraces
    rcases h.accesses hends ha with ⟨rfl, hR⟩ | ⟨rfl, v, hv⟩ <;>
      rcases h.accesses hends hb with ⟨rfl, hR'⟩ | ⟨rfl, v', hv'⟩
    · cases hab
    · exact hfree.unread u _ hv' hR
    · exact hfree.unread t _ hv hR'
    · exact hfree.apart t u hne _ hv _ hv' rfl

/-- A cell that is read still holds what it held at the barrier. -/
theorem reads (h : Between R mem log q w made togo) (hfree : RaceFree A R log) {i : ι} (hR : R i) :
    w.mem i = mem i := by
  refine h.stored.old i fun t s hs heq => ?_
  have hmem : s ∈ log t := by
    rw [h.stores t]
    exact List.mem_append_left _ hs
  exact hfree.unread t s hmem (heq ▸ hR)

/-- An access of one thread. -/
theorem step [Fintype τ] (h : Between R mem log q w made togo) (hends : ∀ t, (q t).access = none)
    (hfree : RaceFree A R log) {t : τ} (hmoving : (w.threads t).access ≠ none) (hs : w.Step w') :
    ∃ made' togo', Between R mem log q w' made' togo' ∧
      ∑ t, (w'.threads t).length mem < ∑ t, (w.threads t).length mem := by
  have hless : ∀ (t : τ) (p : Thread ι α Unit), p.length mem < (w.threads t).length mem →
      ∑ u, (Function.update w.threads t p u).length mem < ∑ u, (w.threads u).length mem := by
    intro t p hp
    refine Finset.sum_lt_sum (fun u _ => ?_) ⟨t, Finset.mem_univ t, ?_⟩
    · by_cases hut : u = t
      · subst hut
        rw [Function.update_self]
        exact hp.le
      · rw [Function.update_of_ne hut]
    · rwa [Function.update_self]
  cases hs with
  | @read t i next hread =>
    have hphase := h.phase t
    rw [hread] at hphase
    obtain ⟨hR, hrest⟩ := hphase.read_inv (hends t)
    rw [h.reads hfree hR]
    refine ⟨made, togo, ⟨h.stores, h.stored, fun u => ?_⟩, hless t _ ?_⟩
    · dsimp only
      by_cases hut : u = t
      · subst hut
        rwa [Function.update_self]
      · rw [Function.update_of_ne hut]
        exact h.phase u
    · rw [hread]
      exact Nat.lt_succ_self _
  | @store t i v next hstore =>
    have hphase := h.phase t
    rw [hstore] at hphase
    obtain ⟨rest, htogo, hrest⟩ := hphase.store_inv (hends t)
    have hmade : ∀ u, ∀ s ∈ made u, s ∈ log u := by
      intro u s hs
      rw [h.stores u]
      exact List.mem_append_left _ hs
    have hput : (i, v) ∈ log t := by
      rw [h.stores t, htogo]
      exact List.mem_append_right _ List.mem_cons_self
    have hone : ∀ u, ∀ s ∈ log u, s.1 = i → s.2 = v := by
      intro u s hs hi
      by_cases hut : u = t
      · subst hut
        exact hfree.agree u s hs (i, v) hput hi
      · exact absurd hi (hfree.apart u t hut s hs (i, v) hput)
    refine ⟨Function.update made t (made t ++ [(i, v)]), Function.update togo t rest,
      ⟨fun u => ?_, h.stored.put hmade hput hone, fun u => ?_⟩, hless t _ ?_⟩
    · by_cases hut : u = t
      · subst hut
        rw [Function.update_self, Function.update_self, List.append_assoc, h.stores u, htogo]
        rfl
      · rw [Function.update_of_ne hut, Function.update_of_ne hut]
        exact h.stores u
    · dsimp only
      by_cases hut : u = t
      · subst hut
        rwa [Function.update_self, Function.update_self]
      · rw [Function.update_of_ne hut, Function.update_of_ne hut]
        exact h.phase u
    · rw [hstore]
      exact Nat.lt_succ_self _
  | @sync next hsync =>
    rw [hsync t] at hmoving
    exact absurd rfl hmoving

end Between

/-- The rule of a phase: the warp comes to the barrier, or to its end, with all the stores made. -/
theorem Warp.Comes.superstep [Fintype τ] {A R : ι → Prop} {Q : (ι → α) → Prop} {mem : ι → α}
    {threads q : τ → Thread ι α Unit} {log : τ → List (ι × α)}
    (hphase : ∀ t, Phase R mem (threads t) (log t) (q t)) (hends : ∀ t, (q t).access = none)
    (hfree : RaceFree A R log) (hnext : ∀ mem', Stored mem log mem' → Comes A Q ⟨mem', q⟩) :
    Comes A Q ⟨mem, threads⟩ := by
  have hcomes : ∀ (n : Nat) (w : Warp τ ι α) (made togo : τ → List (ι × α)),
      ∑ t, (w.threads t).length mem = n → Between R mem log q w made togo → Comes A Q w := by
    intro n
    induction n using Nat.strong_induction_on with
    | _ n ih =>
    intro w made togo hn h
    by_cases hall : ∀ t, (w.threads t).access = none
    · -- every thread is where the phase ends
      have hq : w.threads = q := funext fun t => ((h.phase t).end_of_access (hall t)).1
      have hlog : made = log := by
        funext t
        rw [h.stores t, ((h.phase t).end_of_access (hall t)).2, List.append_nil]
      have hstored := h.stored
      rw [hlog] at hstored
      have hw : w = ⟨w.mem, q⟩ := by rw [← hq]
      rw [hw]
      exact hnext _ hstored
    · obtain ⟨t, ht⟩ := not_forall.mp hall
      refine .step (h.safe hends hfree) ?_ fun w' hs => ?_
      · generalize hp : w.threads t = p at ht
        cases p with
        | read i next => exact ⟨_, .read hp⟩
        | store i v next => exact ⟨_, .store hp⟩
        | done b => exact absurd rfl ht
        | sync next => exact absurd rfl ht
        | fail => exact absurd rfl ht
      · obtain ⟨made', togo', h', hlt⟩ := h.step hends hfree ht hs
        exact ih _ (hn ▸ hlt) w' made' togo' rfl h'
  exact hcomes _ ⟨mem, threads⟩ _ _ rfl (Between.start hphase)

/-- All threads at a barrier. -/
theorem Warp.Comes.pass {A : ι → Prop} {Q : (ι → α) → Prop} {mem : ι → α}
    {next : τ → Thread ι α Unit} (h : Comes A Q ⟨mem, next⟩) :
    Comes A Q ⟨mem, fun t => .sync (next t)⟩ := by
  refine .step ⟨fun t i s ha => ?_, fun t u _ hraces => ?_⟩ ⟨_, .sync fun _ => rfl⟩ fun w' hs => ?_
  · cases ha
  · obtain ⟨i, a, b, ha, -⟩ := hraces
    cases ha
  · cases hs with
    | read hread => cases hread
    | store hstore => cases hstore
    | @sync next' hsync =>
      have hnext : next = next' := funext fun t => Thread.sync.inj (hsync t)
      rwa [← hnext]

end Bslz4ToSparse.Foundation
