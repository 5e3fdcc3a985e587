import Mathlib.Data.List.Basic
import Mathlib.Tactic.Basic

/-! Runs of a partial, labelled step function. A label carries everything that
is not determined by the state (the scheduled party, the value read, the message
received), so a run is determined by its first state and its labels. -/
namespace Transition

variable {σ ε α : Type*} (step : σ → ε → Option σ)

/-- Take the labelled steps in order. `none` when one of them is not enabled. -/
def run : σ → List ε → Option σ
  | s, [] => some s
  | s, e :: es => (step s e).bind fun t => run t es

@[simp] theorem run_nil (s : σ) : run step s [] = some s := rfl

theorem run_cons_iff (s u : σ) (e : ε) (es : List ε) :
    run step s (e :: es) = some u ↔ ∃ t, step s e = some t ∧ run step t es = some u :=
  Option.bind_eq_some_iff

theorem run_append_iff (s u : σ) (es fs : List ε) :
    run step s (es ++ fs) = some u ↔ ∃ t, run step s es = some t ∧ run step t fs = some u := by
  induction es generalizing s with
  | nil => simp
  | cons e es ih =>
    rw [List.cons_append, run_cons_iff]
    constructor
    · rintro ⟨t, ht, hr⟩
      obtain ⟨m, hm, hu⟩ := (ih t).mp hr
      exact ⟨m, (run_cons_iff step _ _ _ _).mpr ⟨t, ht, hm⟩, hu⟩
    · rintro ⟨m, hm, hu⟩
      obtain ⟨t, ht, hr⟩ := (run_cons_iff step _ _ _ _).mp hm
      exact ⟨t, ht, (ih t).mpr ⟨m, hr, hu⟩⟩

theorem run_snoc_iff (s u : σ) (es : List ε) (e : ε) :
    run step s (es ++ [e]) = some u ↔ ∃ t, run step s es = some t ∧ step t e = some u := by
  rw [run_append_iff]
  simp only [run_cons_iff, run_nil, Option.some.injEq, exists_eq_right]

/-- A run splits around any one of its labels. -/
theorem run_split (s u : σ) (pre post : List ε) (e : ε)
    (h : run step s (pre ++ e :: post) = some u) :
    ∃ t t', run step s pre = some t ∧ step t e = some t' ∧ run step t' post = some u := by
  obtain ⟨t, hpre, hrest⟩ := (run_append_iff step _ _ _ _).mp h
  obtain ⟨t', he, hpost⟩ := (run_cons_iff step _ _ _ _).mp hrest
  exact ⟨t, t', hpre, he, hpost⟩

theorem run_map {β : Type*} (f : β → ε) (s : σ) (bs : List β) :
    run step s (bs.map f) = run (fun s b => step s (f b)) s bs := by
  induction bs generalizing s with
  | nil => rfl
  | cons b bs ih =>
    rw [List.map_cons, run, run]
    congr 1
    funext t
    exact ih t

/-- A run of a restricted step function is a run. -/
theorem run_mono {step step' : σ → ε → Option σ}
    (h : ∀ s e t, step s e = some t → step' s e = some t) {s t : σ} {es : List ε}
    (hr : run step s es = some t) : run step' s es = some t := by
  induction es generalizing s with
  | nil => exact hr
  | cons e es ih =>
    obtain ⟨m, hm, hr⟩ := (run_cons_iff step _ _ _ _).mp hr
    exact (run_cons_iff step' _ _ _ _).mpr ⟨m, h s e m hm, ih hr⟩

/-- A run exists when each of its labels is enabled everywhere. -/
theorem exists_run (s : σ) (es : List ε) (h : ∀ e ∈ es, ∀ t, ∃ u, step t e = some u) :
    ∃ u, run step s es = some u := by
  induction es generalizing s with
  | nil => exact ⟨s, rfl⟩
  | cons e es ih =>
    obtain ⟨t, ht⟩ := h e List.mem_cons_self s
    obtain ⟨u, hu⟩ := ih t fun e' he' => h e' (List.mem_cons_of_mem e he')
    exact ⟨u, (run_cons_iff step _ _ _ _).mpr ⟨t, ht, hu⟩⟩

/-- A run seen through a view: each label stands for one label of the viewed machine,
or for none. -/
theorem run_filterMap {τ β : Type*} {step' : τ → β → Option τ} (view : σ → τ) (f : ε → Option β)
    (hsome : ∀ s e t b, step s e = some t → f e = some b → step' (view s) b = some (view t))
    (hnone : ∀ s e t, step s e = some t → f e = none → view t = view s)
    {s t : σ} {es : List ε} (hr : run step s es = some t) :
    run step' (view s) (es.filterMap f) = some (view t) := by
  induction es generalizing s with
  | nil =>
    obtain rfl : s = t := Option.some.inj hr
    rfl
  | cons e es ih =>
    obtain ⟨m, hm, hr⟩ := (run_cons_iff step _ _ _ _).mp hr
    cases he : f e with
    | none =>
      rw [List.filterMap_cons_none he, ← hnone s e m hm he]
      exact ih hr
    | some b =>
      rw [List.filterMap_cons_some he]
      exact (run_cons_iff step' _ _ _ _).mpr ⟨view m, hsome s e m b hm he, ih hr⟩

/-- Every step of the run is taken from a state, and under a label, that `P` allows. -/
def Along (P : σ → ε → Prop) : σ → List ε → Prop
  | _, [] => True
  | s, e :: es => P s e ∧ ∀ t, step s e = some t → Along P t es

theorem along_cons_iff {P : σ → ε → Prop} {s t : σ} {e : ε} (es : List ε) (h : step s e = some t) :
    Along step P s (e :: es) ↔ P s e ∧ Along step P t es := by
  simp [Along, h]

instance decidableAlong {P : σ → ε → Prop} [∀ s e, Decidable (P s e)] :
    ∀ s es, Decidable (Along step P s es)
  | _, [] => .isTrue trivial
  | s, e :: es =>
    match h : step s e with
    | none => decidable_of_iff (P s e) (by simp [Along, h])
    | some t =>
      have : Decidable (Along step P t es) := decidableAlong t es
      decidable_of_iff (P s e ∧ Along step P t es) (along_cons_iff step es h).symm

theorem along_of_forall {P : σ → ε → Prop} (s : σ) (es : List ε)
    (h : ∀ e ∈ es, ∀ t, P t e) : Along step P s es := by
  induction es generalizing s with
  | nil => trivial
  | cons e es ih =>
    exact ⟨h e List.mem_cons_self s, fun t _ => ih t fun e' he' => h e' (List.mem_cons_of_mem e he')⟩

theorem along_append {P : σ → ε → Prop} (s t : σ) (es fs : List ε)
    (h : Along step P s (es ++ fs)) (ht : run step s es = some t) :
    Along step P s es ∧ Along step P t fs := by
  induction es generalizing s with
  | nil =>
    obtain rfl : s = t := Option.some.inj ht
    exact ⟨trivial, h⟩
  | cons e es ih =>
    obtain ⟨m, hm, hr⟩ := (run_cons_iff step _ _ _ _).mp ht
    refine ⟨⟨h.1, fun m' hm' => ?_⟩, (ih m (h.2 m hm) hr).2⟩
    obtain rfl : m = m' := Option.some.inj (hm.symm.trans hm')
    exact (ih m (h.2 m hm) hr).1

section Rules

variable {step}

/-- Simulation by a total abstract machine: related states stay related when the
concrete step and the abstract step read the same label. -/
theorem run_simulation {R : σ → α → Prop} {P : σ → ε → Prop} (next : α → ε → α)
    (hstep : ∀ s a e t, R s a → P s e → step s e = some t → R t (next a e))
    {s t : σ} {a : α} {es : List ε} (h : R s a) (hp : Along step P s es)
    (hr : run step s es = some t) : R t (es.foldl next a) := by
  induction es generalizing s a with
  | nil =>
    obtain rfl : s = t := Option.some.inj hr
    exact h
  | cons e es ih =>
    obtain ⟨m, hm, hr⟩ := (run_cons_iff step _ _ _ _).mp hr
    exact ih (hstep s a e m h hp.1 hm) (hp.2 m hm) hr

/-- The invariant rule, for runs whose steps all satisfy a side condition. -/
theorem run_invariant_along {I : σ → Prop} {P : σ → ε → Prop}
    (hstep : ∀ s e t, I s → P s e → step s e = some t → I t)
    {s t : σ} {es : List ε} (h : I s) (hp : Along step P s es)
    (hr : run step s es = some t) : I t :=
  run_simulation (R := fun s (_ : Unit) => I s) (a := ()) (fun a _ => a)
    (fun s _ e t hs hp he => hstep s e t hs hp he) h hp hr

theorem run_invariant {I : σ → Prop} (hstep : ∀ s e t, I s → step s e = some t → I t)
    {s t : σ} {es : List ε} (h : I s) (hr : run step s es = some t) : I t :=
  run_invariant_along (P := fun _ _ => True) (fun s e t hs _ he => hstep s e t hs he) h
    (along_of_forall step s es fun _ _ _ => trivial) hr

/-- An invariant under which every label satisfies `Q`. -/
theorem run_forall_labels {I : σ → Prop} {P : σ → ε → Prop} {Q : ε → Prop}
    (hstep : ∀ s e t, I s → P s e → step s e = some t → I t ∧ Q e)
    {s t : σ} {es : List ε} (h : I s) (hp : Along step P s es)
    (hr : run step s es = some t) : I t ∧ ∀ e ∈ es, Q e := by
  induction es generalizing s with
  | nil =>
    obtain rfl : s = t := Option.some.inj hr
    exact ⟨h, by simp⟩
  | cons e es ih =>
    obtain ⟨m, hm, hr⟩ := (run_cons_iff step _ _ _ _).mp hr
    obtain ⟨hI, he⟩ := hstep s e m h hp.1 hm
    obtain ⟨ht, hes⟩ := ih hI (hp.2 m hm) hr
    exact ⟨ht, List.forall_mem_cons.mpr ⟨he, hes⟩⟩

/-- The invariant rule for a property of the state and of the labels so far. -/
theorem run_history {I : List ε → σ → Prop}
    (hstep : ∀ es s e t, I es s → step s e = some t → I (es ++ [e]) t)
    {s t : σ} {es : List ε} (h : I [] s) (hr : run step s es = some t) : I es t := by
  have hfold (past es : List ε) : es.foldl (fun past e => past ++ [e]) past = past ++ es := by
    induction es generalizing past with
    | nil => simp
    | cons e es ih => rw [List.foldl_cons, ih, List.append_assoc, List.singleton_append]
  have hsim := run_simulation (R := fun s past => I past s) (P := fun _ _ => True)
    (fun past e => past ++ [e]) (fun s past e t hs _ he => hstep past s e t hs he) h
    (along_of_forall step s es fun _ _ _ => trivial) hr
  rwa [hfold, List.nil_append] at hsim

/-- A budget that every counted step pays for bounds the number of counted steps. -/
theorem countP_le_budget {I : σ → Prop} {P : σ → ε → Prop} (counted : ε → Bool)
    (budget : σ → ℕ)
    (hstep : ∀ s e t, I s → P s e → step s e = some t →
      I t ∧ budget t + (if counted e then 1 else 0) ≤ budget s)
    {s t : σ} {es : List ε} (h : I s) (hp : Along step P s es)
    (hr : run step s es = some t) : es.countP counted ≤ budget s := by
  induction es generalizing s with
  | nil => simp
  | cons e es ih =>
    obtain ⟨m, hm, hr⟩ := (run_cons_iff step _ _ _ _).mp hr
    obtain ⟨hI, hb⟩ := hstep s e m h hp.1 hm
    have hrest := ih hI (hp.2 m hm) hr
    rw [List.countP_cons]
    omega

/-- An account that every step keeps: a counted step draws one from the balance, and a
productive step pays `cost` in. -/
theorem countP_account {I : σ → Prop} {P : σ → ε → Prop} (counted productive : ε → Bool)
    (balance : σ → ℕ) (cost : ℕ)
    (hstep : ∀ s e t, I s → P s e → step s e = some t →
      I t ∧ balance t + (if counted e then 1 else 0) =
        balance s + (if productive e then cost else 0))
    {s t : σ} {es : List ε} (h : I s) (hp : Along step P s es) (hr : run step s es = some t) :
    es.countP counted + balance t = balance s + cost * es.countP productive := by
  induction es generalizing s with
  | nil =>
    obtain rfl : s = t := Option.some.inj hr
    simp
  | cons e es ih =>
    obtain ⟨m, hm, hr⟩ := (run_cons_iff step _ _ _ _).mp hr
    obtain ⟨hI, hb⟩ := hstep s e m h hp.1 hm
    have hrest := ih hI (hp.2 m hm) hr
    have hpaid : cost * es.countP productive + (if productive e then cost else 0) =
        cost * (e :: es).countP productive := by
      rw [List.countP_cons, Nat.mul_add]
      split_ifs <;> simp
    rw [← hpaid, List.countP_cons]
    omega

end Rules

/-- A fold of fallible steps fails where the first of them does. -/
theorem foldlM_eq_error_iff {β ρ : Type*} (f : α → β → Except ρ α) (a : α) (bs : List β) (r : ρ) :
    bs.foldlM f a = .error r ↔
      ∃ pre b post c, bs = pre ++ b :: post ∧ pre.foldlM f a = .ok c ∧ f c b = .error r := by
  induction bs generalizing a with
  | nil => simp [pure, Except.pure]
  | cons b bs ih =>
    rw [List.foldlM_cons]
    constructor
    · intro h
      cases hb : f a b with
      | error r' =>
        rw [hb] at h
        obtain rfl := Except.error.inj h
        exact ⟨[], b, bs, a, rfl, rfl, hb⟩
      | ok c =>
        rw [hb] at h
        obtain ⟨pre, b', post, d, rfl, hpre, hfail⟩ := (ih c).mp h
        refine ⟨b :: pre, b', post, d, rfl, ?_, hfail⟩
        rw [List.foldlM_cons, hb]
        exact hpre
    · rintro ⟨pre, b', post, d, heq, hpre, hfail⟩
      cases pre with
      | nil =>
        obtain ⟨rfl, rfl⟩ := List.cons.inj heq
        obtain rfl := Except.ok.inj hpre
        rw [hfail]
        rfl
      | cons b'' pre =>
        obtain ⟨rfl, rfl⟩ := List.cons.inj heq
        rw [List.foldlM_cons] at hpre
        cases hb : f a b with
        | error r' =>
          rw [hb] at hpre
          cases hpre
        | ok c =>
          rw [hb] at hpre
          exact (ih c).mpr ⟨pre, b', post, d, rfl, hpre, hfail⟩

/-- Some finite continuation of the run ends in a state of `Q`. -/
def CanReach (Q : σ → Prop) (s : σ) : Prop := ∃ es t, run step s es = some t ∧ Q t

section CanReach

variable {step} {Q : σ → Prop}

theorem canReach_of_run {s t : σ} {es : List ε} (hr : run step s es = some t)
    (h : CanReach step Q t) : CanReach step Q s := by
  obtain ⟨fs, u, hu, hq⟩ := h
  exact ⟨es ++ fs, u, (run_append_iff step _ _ _ _).mpr ⟨t, hr, hu⟩, hq⟩

theorem canReach_of_step {s t : σ} {e : ε} (he : step s e = some t)
    (h : CanReach step Q t) : CanReach step Q s :=
  canReach_of_run ((run_cons_iff step s t e []).mpr ⟨t, he, rfl⟩) h

theorem canReach_self {s : σ} (h : Q s) : CanReach step Q s := ⟨[], s, rfl, h⟩

/-- A set of states that no step leaves and that misses `Q` has no way to `Q`. -/
theorem not_canReach_of_closed {D : σ → Prop}
    (hstep : ∀ s e t, D s → step s e = some t → D t) (hmiss : ∀ s, D s → ¬Q s)
    {s : σ} (h : D s) : ¬CanReach step Q s := by
  rintro ⟨es, t, hr, hq⟩
  exact hmiss t (run_invariant hstep h hr) hq

end CanReach

end Transition
