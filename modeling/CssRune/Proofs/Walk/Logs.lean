/-
**What a walk logs.**

A log holds the events of the visits of a walk.  Leaving out what some sites hold takes the events
below them out of it, and a limit cuts it off: a walk that would log one event more fails over that
event, with all events before it in the log.

Main results:

* `LogRules.spends_visitor`, `Spends.bind` — what one step does to the log and what a sequence of
  steps does;
* `Site.spends_walk` — **a walk adds the events of its visits to the log**.
-/

import CssRune.Proofs.Walk.Visits

set_option autoImplicit false

namespace CssRune

variable {ε σ : Type}

/-! ### The log of visits -/

/-- The log of visits in which everything below sites of some kinds is left out. -/
def LogRules.logOf (rules : LogRules σ) (prunes : SiteKind → Bool) (visits : List (Visit σ)) :
    List (WalkEvent σ) :=
  (visits.filter fun v => rules.logs v.site.kind &&
    !visits.any fun u => prunes u.site.kind && u.isAbove v).map Visit.event

/-- Selecting visits below a site is selecting below each of its children. -/
theorem Visit.filter_nest {p : Visit σ → Bool} {q : Site → Visit σ → Bool}
    {f : Site → List (Visit σ)} {cs : List Site} {i : Nat}
    (h : ∀ (j : Nat) (c : Site), cs[j]? = some c → ∀ u ∈ f c, p (u.under (i + j)) = q c u) :
    ((nest i (cs.map f)).filter p).map event =
      cs.flatMap fun c => ((f c).filter (q c)).map event := by
  induction cs generalizing i with
  | nil => rfl
  | cons c cs ih =>
    have hrest := ih (i := i + 1) fun j c' hc' u hu => by
      rw [Nat.add_assoc, Nat.add_comm 1 j]
      exact h (j + 1) c' (by rw [List.getElem?_cons_succ, hc']) u hu
    have hhere : (f c).filter (p ∘ under i) = (f c).filter (q c) :=
      List.filter_congr fun u hu => h 0 c List.getElem?_cons_zero u hu
    rw [List.map_cons, nest, List.filter_append, List.map_append, hrest, List.flatMap_cons,
      List.filter_map, hhere, List.map_map]
    rfl

namespace Site

variable {rules : LogRules σ} {prunes : SiteKind → Bool} {s : σ} {site c : Site} {i : Nat}

/-- Something above a visit below a child is left out exactly if the site itself is or something
below the same child. -/
theorem any_above_under (hc : site.children[i]? = some c) (v : Visit σ) :
    ((site.visits rules s).any fun u => prunes u.site.kind && u.isAbove (v.under i)) =
      (prunes site.kind || (c.visits rules (rules.down s site)).any fun u =>
        prunes u.site.kind && u.isAbove v) := by
  rw [Bool.eq_iff_iff, Bool.or_eq_true, List.any_eq_true, List.any_eq_true]
  constructor
  · rintro ⟨u, hu, huv⟩
    rw [Bool.and_eq_true] at huv
    rcases above_under hc hu huv.2 with rfl | ⟨w, hw, rfl, hwv⟩
    · exact .inl huv.1
    · exact .inr ⟨w, hw, by rw [Bool.and_eq_true]; exact ⟨huv.1, hwv⟩⟩
  · rintro (hsite | ⟨w, hw, hwv⟩)
    · refine ⟨_, (mem_visits rules).2 (.inl rfl), ?_⟩
      rw [Bool.and_eq_true]
      exact ⟨hsite, root_isAbove_under v i site s⟩
    · refine ⟨_, (mem_visits rules).2 (.inr ⟨i, c, hc, w, hw, rfl⟩), ?_⟩
      rw [Visit.isAbove_under, beq_self_eq_true, Bool.true_and]
      exact hwv

/-- The log of a site is its own event and, unless they are left out, the logs of its children. -/
theorem logOf_visits (site : Site) (s : σ) :
    rules.logOf prunes (site.visits rules s) =
      (if rules.logs site.kind then [⟨site, s⟩] else []) ++
        if prunes site.kind then [] else
          site.children.flatMap fun c =>
            rules.logOf prunes (c.visits rules (rules.down s site)) := by
  rw [LogRules.logOf]
  generalize hkeep : (fun v : Visit σ => rules.logs v.site.kind &&
    !(site.visits rules s).any fun u => prunes u.site.kind && u.isAbove v) = keep
  have hself : keep ⟨[], site, s⟩ = rules.logs site.kind := by
    have hnone : ((site.visits rules s).any fun u =>
        prunes u.site.kind && u.isAbove ⟨[], site, s⟩) = false :=
      List.any_eq_false.2 fun u _ => by simp [not_isAbove_root]
    rw [← hkeep]
    simp only [hnone, Bool.not_false, Bool.and_true]
  have hbelow : ((Visit.nest 0 (site.children.map (visits rules (rules.down s site)))).filter
      keep).map Visit.event = if prunes site.kind then [] else
        site.children.flatMap fun c => rules.logOf prunes (c.visits rules (rules.down s site)) := by
    rw [Visit.filter_nest (q := fun c u => !prunes site.kind && (rules.logs u.site.kind &&
      !(c.visits rules (rules.down s site)).any fun w => prunes w.site.kind && w.isAbove u))]
    · cases hprunes : prunes site.kind with
      | true => simp
      | false =>
        simp only [Bool.not_false, Bool.true_and]
        rfl
    · intro j c hc u _
      rw [← hkeep, Nat.zero_add]
      show (rules.logs u.site.kind && !(site.visits rules s).any fun w =>
        prunes w.site.kind && w.isAbove (u.under j)) = _
      rw [any_above_under hc, Bool.not_or, Bool.and_left_comm]
  rw [visits_eq, List.filter_cons, hself]
  cases rules.logs site.kind with
  | true => exact congrArg _ hbelow
  | false => exact hbelow

end Site

/-! ### Room in a log -/

/-- A computation adds events to a log and gives a value.  If there is no room for all of the
events, it adds those there is room for and fails over the next one. -/
structure Spends {α : Type} (limit : Option Nat) (fault : WalkEvent σ → ε) (x : Logging ε σ α)
    (events : List (WalkEvent σ)) (a : α) : Prop where
  fits : ∀ log, (∀ n, limit = some n → events.length ≤ n - log.length) →
    x.run.run log = (.ok a, log ++ events)
  fails : ∀ log n e, limit = some n → events[n - log.length]? = some e →
    x.run.run log = (.error (fault e), log ++ events.take (n - log.length))

section Runs

variable {α β : Type} {limit : Option Nat} {fault : WalkEvent σ → ε}

variable {x : Logging ε σ α} {f : α → Logging ε σ β} {log log' : List (WalkEvent σ)}

theorem run_bind_ok {a : α} (h : x.run.run log = (.ok a, log')) :
    (x >>= f).run.run log = (f a).run.run log' := by
  rw [ExceptT.run_bind, StateT.run_bind, h]
  rfl

theorem run_bind_error {e : ε} (h : x.run.run log = (.error e, log')) :
    (x >>= f).run.run log = (.error e, log') := by
  rw [ExceptT.run_bind, StateT.run_bind, h]
  rfl

namespace Spends

variable {x : Logging ε σ α} {f : α → Logging ε σ β} {es es' : List (WalkEvent σ)} {a : α} {b : β}

theorem pure (a : α) : Spends limit fault (pure a : Logging ε σ α) [] a := by
  refine ⟨fun log _ => ?_, fun log n e _ he => by cases he⟩
  rw [List.append_nil]
  rfl

/-- Events of one computation after another are added one after another. -/
theorem bind (hx : Spends limit fault x es a) (hf : Spends limit fault (f a) es' b) :
    Spends limit fault (x >>= f) (es ++ es') b := by
  refine ⟨fun log hroom => ?_, fun log n e hlimit he => ?_⟩
  · have hfirst := hx.fits log fun n hn => by
      have := hroom n hn
      rw [List.length_append] at this
      omega
    rw [run_bind_ok hfirst, ← List.append_assoc]
    refine hf.fits _ fun n hn => ?_
    have := hroom n hn
    rw [List.length_append] at this ⊢
    omega
  · rcases Nat.lt_or_ge (n - log.length) es.length with hlt | hge
    · -- the first computation has already more events than there is room for
      rw [List.getElem?_append_left hlt] at he
      rw [run_bind_error (hx.fails log n e hlimit he), List.take_append_of_le_length (by omega)]
    · have hfirst := hx.fits log fun k hk => by
        cases hlimit.symm.trans hk
        exact hge
      have hrest : n - (log ++ es).length = n - log.length - es.length := by
        rw [List.length_append]
        omega
      rw [List.getElem?_append_right hge, ← hrest] at he
      rw [run_bind_ok hfirst, hf.fails _ n e hlimit he, hrest, List.append_assoc,
        List.take_append, List.take_of_length_le hge]

/-- What a list of walks adds to the log. -/
theorem walkAll {walk : α → Logging ε σ Unit} {events : α → List (WalkEvent σ)} {as : List α}
    (h : ∀ a ∈ as, Spends limit fault (walk a) (events a) ()) :
    Spends limit fault (walkAll walk as) (as.flatMap events) () := by
  induction as with
  | nil => exact pure ()
  | cons a as ih =>
    rw [List.flatMap_cons]
    exact bind (h a List.mem_cons_self) (ih fun a' ha' => h a' (List.mem_cons_of_mem a ha'))

end Spends

/-- What showing a site adds to the log. -/
theorem LogRules.spends_visitor (rules : LogRules σ) (prunes : SiteKind → Bool)
    (limit : Option Nat) (fault : WalkEvent σ → ε) (s : σ) (site : Site) :
    Spends limit fault (rules.visitor prunes limit fault s site)
      (if rules.logs site.kind then [⟨site, s⟩] else [])
      (if prunes site.kind then none else some (rules.down s site)) := by
  generalize hgoes : (if prunes site.kind then none else some (rules.down s site)) = goes
  cases hlogs : rules.logs site.kind with
  | false =>
    simp only [visitor, hlogs, hgoes]
    exact Spends.pure goes
  | true =>
    have hrun : ∀ log, (rules.visitor prunes limit fault s site).run.run log =
        if limit.any (· ≤ log.length) then (.error (fault ⟨site, s⟩), log)
        else (.ok goes, log ++ [⟨site, s⟩]) := by
      intro log
      have hget : (get : Logging ε σ (List (WalkEvent σ))).run.run log = (.ok log, log) := rfl
      simp only [visitor, hlogs, hgoes, if_true]
      rw [run_bind_ok hget]
      cases limit.any (· ≤ log.length) <;> rfl
    rw [if_pos rfl]
    refine ⟨fun log hroom => ?_, fun log n e hlimit he => ?_⟩
    · have hfull : limit.any (· ≤ log.length) = false := by
        cases limit with
        | none => rfl
        | some n =>
          have := hroom n rfl
          rw [List.length_singleton] at this
          simp only [Option.any_some, decide_eq_false_iff_not]
          omega
      rw [hrun, hfull, if_neg Bool.false_ne_true]
    · obtain ⟨hlt, rfl⟩ := List.getElem?_eq_some_iff.1 he
      rw [List.length_singleton] at hlt
      have hle : n ≤ log.length := by omega
      have hzero : n - log.length = 0 := by omega
      rw [hrun, hlimit, Option.any_some, decide_eq_true hle, if_pos rfl]
      simp only [hzero, List.getElem_cons_zero, List.take_zero, List.append_nil]

/-- **A walk adds the events of its visits to the log.** -/
theorem Site.spends_walk (rules : LogRules σ) (prunes : SiteKind → Bool) (limit : Option Nat)
    (fault : WalkEvent σ → ε) (site : Site) (s : σ) :
    Spends limit fault (site.walk (rules.visitor prunes limit fault) s)
      (rules.logOf prunes (site.visits rules s)) () := by
  induction site using Site.induction generalizing s with
  | step site ih =>
    rw [Site.walk_eq, logOf_visits, walkInto]
    refine (rules.spends_visitor prunes limit fault s site).bind ?_
    cases prunes site.kind with
    | true => exact Spends.pure ()
    | false => exact Spends.walkAll fun c hc => ih c hc _

end Runs

end CssRune
