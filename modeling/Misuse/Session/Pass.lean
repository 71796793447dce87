import Misuse.Session.Basic

/-!
# Passes

A pass takes in the bindings that have arrived, applies the queued calls, publishes the
effects that are due, retracts what they retract, and judges every object anew against the
store. An effect waits while a query for one of its variables is unanswered and while its
guard is unclear; a guard that does not hold drops it. Retractions come after all else
that is published in the pass.

Objects publish one after another in tracking order, and each guard sees what those before have
published. That is the pass of one worker: the orders in which several workers may publish side by
side are not modelled.
-/

namespace Misuse

/-- The numbers of one pass. -/
structure PassSummary where
  /-- From 1 on. -/
  pass : Nat
  objects : Nat
  callsApplied : Nat
  bindingsReceived : Nat
  /-- Queries that were not known before. -/
  queriesAsked : Nat
  factsPublished : Nat
  retractions : Nat
  /-- Effects that are held back. -/
  deferred : Nat
  /-- Constraints that wait for a variable. -/
  pending : Nat
  /-- Records in the report. -/
  violations : Nat
  deriving DecidableEq, Repr, Inhabited

namespace PassSummary

/-- Nothing is held back. -/
def isSettled (p : PassSummary) : Bool := p.pending == 0 && p.deferred == 0

end PassSummary

namespace Session

/-! ## Bindings -/

/-- Hand a binding to its object; counts it if its place was free. -/
def deliver : Session × Nat → Delivery String → Session × Nat
  | (s, n), d =>
    match s.bind d.target d.binding with
    | .ok (s, added) => (s, if added then n + 1 else n)
    | .error _ => (s, n)

/-- Empty the inbox; counts the bindings that were added. -/
def drain (s : Session) : Session × Nat :=
  s.inbox.foldl deliver ({ s with inbox := [] }, 0)

/-! ## Calls and queries -/

/-- Apply all queued calls, object by object, and hand out the queries they ask. -/
def applyCalls (s : Session) : Session × List Query :=
  let progress := s.objects.map (Tracked.applyQueued s.matcher)
  ({ s with
      objects := progress.map Tracked.Progress.object
      permanent := s.permanent.extend (progress.flatMap Tracked.Progress.violations) },
    progress.flatMap Tracked.Progress.queries)

/-- Ask a query for its object. An answer that is known already goes to the inbox. -/
def ask (s : Session) (q : Query) : Session :=
  let (registry, deliveries) := (s.registry.request q).1.listen q q.object
  { s with registry, inbox := s.inbox ++ deliveries }

def askCounting : Session × Nat → Query → Session × Nat
  | (s, n), q => (s.ask q, if (s.registry.request q).2 then n + 1 else n)

/-- Ask queries in order; counts those that were not known. -/
def askAll (s : Session) (qs : List Query) : Session × Nat := qs.foldl askCounting (s, 0)

/-! ## Effects -/

/-- What becomes of an effect that is due. -/
inductive Fate where
  | dropped
  | deferred
  | published (facts : List Fact)
  deriving DecidableEq, Repr, Inhabited

/-- The context in which an object is judged against a store. -/
def context (s : Session) (store : FactStore) (o : Tracked) : Context :=
  s.settings.constraints.context s.subtyping
    (store.lookup s.settings.constraints.maxCombinations) o.view

/-- The verdict of a guard; without one there is nothing against the effect. -/
def guardTruth (ctx : Context) (p : Predicate) : Truth :=
  match p.guard with
  | none => .yes
  | some g => (g.evaluate ctx).truth

def fate (s : Session) (waiting : List String) (store : FactStore) (o : Tracked) (t : Trigger) :
    Fate :=
  match o.rule.effects[t.effect]? with
  | none => .dropped
  | some e =>
    if e.mentions.any waiting.contains then .deferred
    else
      match guardTruth (s.context store o) e.predicate with
      | .no => .dropped
      | .unclear => .deferred
      | .yes => .published (o.rule.factsOf o.view s.settings.constraints.maxCombinations t)

/-- What the effects of a pass have come to so far. -/
structure Publication where
  store : FactStore
  published : Nat
  /-- Facts that are retracted at the end. -/
  retractions : List Fact
  /-- The effects of the present object that are held back. -/
  kept : List Trigger
  deriving DecidableEq, Repr, Inhabited

namespace Publication

/-- Facts of one effect go to the store, or wait if they are retractions. -/
def add (p : Publication) (facts : List Fact) : Publication :=
  if facts.any Fact.negated then { p with retractions := p.retractions ++ facts }
  else { p with store := p.store.publishAll facts, published := p.published + facts.length }

end Publication

def publishDue (s : Session) (waiting : List String) (o : Tracked) (p : Publication)
    (t : Trigger) : Publication :=
  match s.fate waiting p.store o t with
  | .dropped => p
  | .deferred => { p with kept := p.kept ++ [t] }
  | .published facts => p.add facts

/-- Publish the due effects of one object. -/
def publishObject (s : Session) : List Tracked × Publication → Tracked → List Tracked × Publication
  | (done, p), o =>
    let p := o.due.foldl (s.publishDue (s.waitingVars o.id) o) { p with kept := [] }
    (done ++ [{ o with due := p.kept }], p)

/-- Publish what is due, object by object, and retract at the end. -/
def publish (s : Session) : Session × Nat × Nat :=
  let (objects, p) := s.objects.foldl s.publishObject ([], ⟨s.store, 0, [], []⟩)
  ({ s with objects, store := p.store.retractAll p.retractions },
    p.published, p.retractions.length)

/-! ## Judging -/

def judgement (s : Session) (o : Tracked) : Judgement :=
  o.rule.judge s.settings.constraints.policy (s.context s.store o)

/-- Judge every object; the findings of the pass before are forgotten. -/
def judge (s : Session) : Session :=
  { s with
    objects := s.objects.map fun o => { o with pending := (s.judgement o).pending }
    findings := Report.empty.extend (s.objects.flatMap fun o => (s.judgement o).violations) }

/-! ## The pass -/

/-- A number added up over all objects. -/
def total (s : Session) (f : Tracked → Nat) : Nat := s.objects.foldr (fun o n => f o + n) 0

/-- A pass in which bindings are taken in the given way. -/
def passBy (drain : Session → Session × Nat) (s : Session) : Session × PassSummary :=
  let queued := s.total fun o => o.queued.length
  let (s, early) := drain { s with passes := s.passes + 1 }
  let (s, queries) := s.applyCalls
  let (s, asked) := s.askAll queries
  let (s, late) := drain s
  let (s, published, retractions) := s.publish
  let s := s.judge
  (s,
    { pass := s.passes
      objects := s.objects.length
      callsApplied := queued
      bindingsReceived := early + late
      queriesAsked := asked
      factsPublished := published
      retractions
      deferred := s.total fun o => o.due.length
      pending := s.total fun o => o.pending.length
      violations := s.report.size })

def pass (s : Session) : Session × PassSummary := s.passBy drain

/-! ## The end of a session -/

/-- The constraints of an object that wait for an unanswered query, as advisories. -/
def unanswered (s : Session) (o : Tracked) : List Violation :=
  let waiting := s.waitingVars o.id
  o.pending.filterMap fun i =>
    match o.rule.constraints[i]? with
    | none => none
    | some c =>
      if c.mentions.any waiting.contains then
        some (.impreciseValue o.rule.className o.id c.display o.lastSite?.toList)
      else none

/-- How the life of an object ends. -/
def ending (s : Session) (o : Tracked) : List Violation :=
  (o.rule.completionRecord? s.settings.typestate o.id o.states o.lastSite?).toList
    ++ s.unanswered o

/-- One last pass, then the end of every object. -/
def finish (s : Session) : Report :=
  let s := s.pass.1
  s.report.extend (s.objects.flatMap s.ending)

end Session

end Misuse
