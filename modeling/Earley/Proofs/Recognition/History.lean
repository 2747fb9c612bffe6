import Earley.Proofs.Grammar.Addition
import Earley.Proofs.Recognition.Consultation
import Mathlib.Data.List.Induction

/-!
# The history of a grammar

A grammar is asked to add productions, for its nullable set, for the productions of a head, and for
charts and verdicts.  Whatever it was asked before, it holds the productions that additions asked
for, in the order in which they were first asked for, and it answers as a grammar that was just
made of these productions.  What the history leaves besides is whether the nullable set is at hand:
it is computed by the first reading after the creation or after an insertion, and by no other.
-/

set_option autoImplicit false

namespace Earley

/-! ## Requests -/

inductive Request where
  | add (addition : Addition)
  | nullable
  | rulesFor (head : Symbol)
  | build (word start : String)
  | recognize (word start : String)

inductive Answer where
  | added (new : Bool)
  | refused (refusal : Refusal)
  | nullable (symbols : List Symbol)
  | rules (productions : List Production)
  | chart (chart : Chart)
  | verdict (accepted : Bool)
  | failed (fault : Fault)

structure Reply where
  grammar : Grammar
  answer : Answer
  events : List Event

def Recognition.reply (r : Recognition) (answer : Answer) : Reply where
  grammar := r.grammar
  answer := match r.fault with
    | none => answer
    | some fault => .failed fault
  events := r.log

namespace Request

def production? : Request → Option Production
  | add addition => addition.allowed?
  | _ => none

/-- Serving the request looks at the nullable set. -/
def reads : Request → Bool
  | nullable => true
  | build _ _ => true
  | recognize _ _ => true
  | _ => false

end Request

namespace Grammar

def serve (grammar : Grammar) : Request → Reply
  | .add addition =>
    match grammar.extend addition with
    | .ok (new, after) => ⟨after, .added new, []⟩
    | .error refusal => ⟨grammar, .refused refusal, []⟩
  | .nullable => ⟨grammar.consult.1, .nullable grammar.consult.1.nullable, grammar.consult.2⟩
  | .rulesFor head => ⟨grammar, .rules (grammar.rulesFor head), []⟩
  | .build word start =>
    let r := Recognition.build grammar word start
    r.reply (.chart r.chart)
  | .recognize word start =>
    let r := Recognition.recognize grammar word start
    r.reply (.verdict r.accepted)

def after (grammar : Grammar) (requests : List Request) : Grammar :=
  requests.foldl (fun grammar request => (grammar.serve request).grammar) grammar

variable {grammar first : Grammar} {initial : List Production} {request : Request}
  {requests : List Request}

@[simp] theorem after_append_singleton :
    first.after (requests ++ [request]) = ((first.after requests).serve request).grammar := by
  simp [after]

/-! ## One request -/

/-- An addition is refused, finds its production there, or inserts it. -/
theorem serve_add (grammar : Grammar) (addition : Addition) :
    (∃ refusal, addition.allowed? = none ∧
      grammar.serve (.add addition) = ⟨grammar, .refused refusal, []⟩) ∨
    (∃ p ∈ grammar.productions, addition.allowed? = some p ∧
      grammar.serve (.add addition) = ⟨grammar, .added false, []⟩) ∨
    ∃ p, ∃ new : p ∉ grammar.productions, ∃ allowed : p.head ≠ augmentedHead,
      addition.allowed? = some p ∧
        grammar.serve (.add addition) = ⟨grammar.append p new allowed, .added true, []⟩ := by
  rcases grammar.extend_cases addition with ⟨refusal, asked, added⟩ | ⟨p, present, asked, added⟩ |
    ⟨p, new, allowed, asked, added⟩
  · exact .inl ⟨refusal, asked, by simp only [serve, added]⟩
  · exact .inr (.inl ⟨p, present, asked, by simp only [serve, added]⟩)
  · exact .inr (.inr ⟨p, new, allowed, asked, by simp only [serve, added]⟩)

theorem serve_build (grammar : Grammar) (word start : String) :
    grammar.serve (.build word start) = ⟨grammar.consult.1,
      .chart (Recognition.build grammar word start).chart,
      (Recognition.build grammar word start).log⟩ := by
  have faultless := (Recognition.underway_build grammar word start).faultless
  have same := (Recognition.consulted_build grammar word start).grammar_eq
  simp [serve, Recognition.reply, faultless, same]

theorem serve_recognize (grammar : Grammar) (word start : String) :
    grammar.serve (.recognize word start) = ⟨grammar.consult.1,
      .verdict (Recognition.recognize grammar word start).accepted,
      (Recognition.recognize grammar word start).log⟩ := by
  have faultless := Recognition.faultless_recognize grammar word start
  have same := (Recognition.consulted_recognize grammar word start).grammar_eq
  simp [serve, Recognition.reply, faultless, same]

theorem productions_serve (grammar : Grammar) (request : Request) :
    (grammar.serve request).grammar.productions =
      request.production?.toList.foldl appendNew grammar.productions := by
  cases request with
  | add addition =>
    rcases grammar.serve_add addition with ⟨_, absent, served⟩ | ⟨p, present, asked, served⟩ |
      ⟨p, new, _, asked, served⟩
    · simp [served, Request.production?, absent]
    · simp [served, Request.production?, asked, appendNew, present]
    · simp [served, Request.production?, asked, appendNew, new, append]
  | nullable => exact grammar.productions_consult
  | rulesFor head => rfl
  | build word start => simp [serve_build, Request.production?]
  | recognize word start => simp [serve_recognize, Request.production?]

/-- The nullable set is not at hand after an insertion, and as before where nothing looks at it. -/
theorem known_serve (grammar : Grammar) (request : Request) :
    (grammar.serve request).grammar.known = none ↔
      (grammar.serve request).answer = .added true ∨
        request.reads = false ∧ grammar.known = none := by
  cases request with
  | add addition =>
    rcases grammar.serve_add addition with ⟨_, _, served⟩ | ⟨_, _, _, served⟩ | ⟨_, _, _, _, served⟩
    · simp [served, Request.reads]
    · simp [served, Request.reads]
    · simp [served, append]
  | nullable => simp [serve, Request.reads]
  | rulesFor head => simp [serve, Request.reads]
  | build word start => simp [serve_build, Request.reads]
  | recognize word start => simp [serve_recognize, Request.reads]

theorem computations_serve (grammar : Grammar) (request : Request) :
    computations (grammar.serve request).events =
      if request.reads = true ∧ grammar.known = none then [nullableSymbols grammar.productions]
      else [] := by
  cases request with
  | add addition =>
    rcases grammar.serve_add addition with ⟨_, _, served⟩ | ⟨_, _, _, served⟩ | ⟨_, _, _, _, served⟩
    all_goals simp [served, Request.reads]
  | nullable => simp [serve, Request.reads, computations_consult]
  | rulesFor head => simp [serve, Request.reads]
  | build word start =>
    have computed := (Recognition.consulted_build grammar word start).computations_eq
    simp [serve_build, Request.reads, computed, computations_consult]
  | recognize word start =>
    have computed := (Recognition.consulted_recognize grammar word start).computations_eq
    simp [serve_recognize, Request.reads, computed, computations_consult]

/-! ## What a grammar with given productions answers -/

theorem answer_congr {other : Grammar} (same : grammar.productions = other.productions)
    (request : Request) : (grammar.serve request).answer = (other.serve request).answer := by
  cases request with
  | add addition =>
    cases asked : addition.production? with
    | error refusal => simp only [serve, extend_of_error _ asked]
    | ok p =>
      simp only [serve, extend_of_ok _ asked, add, same]
      by_cases reserved : p.head = augmentedHead
      · simp [reserved, Except.mapError]
      · by_cases present : p ∈ other.productions <;> simp [reserved, present, Except.mapError]
  | nullable => simp [serve, nullable_eq, same]
  | rulesFor head => simp [serve, rulesFor_congr same]
  | build word start =>
    rw [serve_build, serve_build, (Recognition.alike_build same word start).chart]
  | recognize word start =>
    have verdict : (Recognition.recognize grammar word start).accepted =
        (Recognition.recognize other word start).accepted := by
      rw [Recognition.accepted_recognize, Recognition.accepted_recognize, Recognition.accepted,
        (Recognition.alike_build same word start).chart]
      rfl
    rw [serve_recognize, serve_recognize, verdict]

/-- The grammar has these productions and answers as one that was just made of them. -/
structure Holds (grammar : Grammar) (productions : List Production) : Prop where
  productions_eq : grammar.productions = productions
  nodup : productions.Nodup
  rules : ∀ head, (grammar.serve (.rulesFor head)).answer =
    .rules (productions.filter fun p => p.lhs = head)
  nullable : (grammar.serve .nullable).answer = .nullable (nullableSymbols productions)
  inserts : ∀ addition, (grammar.serve (.add addition)).answer = .added true ↔
    ∃ p, addition.allowed? = some p ∧ p ∉ productions
  keeps : ∀ addition, (grammar.serve (.add addition)).answer ≠ .added true →
    (grammar.serve (.add addition)).grammar = grammar
  charts : ∀ word start, ∃ chart, (grammar.serve (.build word start)).answer = .chart chart
  fresh : ∃ fresh, ofProductions productions = .ok fresh ∧
    ∀ request, (grammar.serve request).answer = (fresh.serve request).answer

theorem holds_productions (grammar : Grammar) : grammar.Holds grammar.productions where
  productions_eq := rfl
  nodup := grammar.nodup
  rules := fun head => congrArg Answer.rules (grammar.filed_byHead head)
  nullable := by simp [serve, nullable_eq]
  inserts := by
    intro addition
    rcases grammar.serve_add addition with ⟨_, absent, served⟩ | ⟨p, present, asked, served⟩ |
      ⟨p, new, _, asked, served⟩
    · simp [served, absent]
    · simp [served, asked, present]
    · simp [served, asked, new]
  keeps := by
    intro addition other
    rcases grammar.serve_add addition with ⟨_, _, served⟩ | ⟨_, _, _, served⟩ | ⟨_, _, _, _, served⟩
    · rw [served]
    · rw [served]
    · simp [served] at other
  charts := fun word start => ⟨_, by rw [serve_build]⟩
  fresh := by
    obtain ⟨fresh, created, same⟩ := grammar.ofProductions_productions
    exact ⟨fresh, created, answer_congr same.symm⟩

/-! ## Histories -/

theorem productions_after (grammar : Grammar) (requests : List Request) :
    (grammar.after requests).productions =
      (requests.filterMap Request.production?).foldl appendNew grammar.productions := by
  induction requests using List.reverseRecOn with
  | nil => rfl
  | append_singleton requests request ih =>
    rw [after_append_singleton, productions_serve, ih, List.filterMap_append, List.foldl_append]
    cases asked : request.production? <;> simp [asked]

/-- Nothing looked at the nullable set since the creation or since the last insertion. -/
inductive Unread (first : Grammar) : List Request → Prop
  | created : Unread first []
  | inserted {requests : List Request} {request : Request}
      (new : ((first.after requests).serve request).answer = .added true) :
      Unread first (requests ++ [request])
  | other {requests : List Request} {request : Request} (earlier : Unread first requests)
      (silent : request.reads = false) : Unread first (requests ++ [request])

theorem unread_append_singleton :
    Unread first (requests ++ [request]) ↔
      ((first.after requests).serve request).answer = .added true ∨
        request.reads = false ∧ Unread first requests := by
  constructor
  · intro unread
    generalize whole : requests ++ [request] = all at unread
    cases unread with
    | created => simp at whole
    | inserted new =>
      obtain ⟨rfl, rfl⟩ := List.append_singleton_inj.mp whole
      exact .inl new
    | other earlier silent =>
      obtain ⟨rfl, rfl⟩ := List.append_singleton_inj.mp whole
      exact .inr ⟨silent, earlier⟩
  · rintro (new | ⟨silent, earlier⟩)
    · exact .inserted new
    · exact .other earlier silent

theorem known_after (unknown : first.known = none) (requests : List Request) :
    (first.after requests).known = none ↔ Unread first requests := by
  induction requests using List.reverseRecOn with
  | nil => exact ⟨fun _ => .created, fun _ => unknown⟩
  | append_singleton requests request ih =>
    rw [after_append_singleton, known_serve, ih, unread_append_singleton]

/-- After any history a grammar holds the productions it was made of and those that additions asked
for, each where it was first asked for.  A request computes the nullable set exactly when it is the
first one to look at it since the creation or since the last insertion. -/
theorem state_after_history (created : ofProductions initial = .ok first)
    (requests : List Request) :
    (first.after requests).Holds
        (initial ++ requests.filterMap Request.production?).eraseDups ∧
      ∀ request,
        (request.reads = true → Unread first requests →
          computations ((first.after requests).serve request).events =
            [nullableSymbols (first.after requests).productions]) ∧
        (request.reads = false ∨ ¬ Unread first requests →
          computations ((first.after requests).serve request).events = []) := by
  constructor
  · have all : (first.after requests).productions =
        (initial ++ requests.filterMap Request.production?).eraseDups := by
      rw [productions_after, productions_ofProductions created, ← List.foldl_append]
      exact foldl_appendNew_nil _
    rw [← all]
    exact holds_productions _
  · intro request
    rw [computations_serve, ← known_after (known_ofProductions created)]
    constructor
    · intro reads unknown
      rw [if_pos ⟨reads, unknown⟩]
    · rintro (silent | known)
      · simp [silent]
      · simp [known]

theorem state_after_history_brackets :
    let requests : List Request :=
      [.add (.production .nesting), .nullable, .add (.texts "S" (some "~"))]
    ofProductions [] = .ok empty ∧ (empty.after requests).productions = [.nesting, .nothing] ∧
      computations ((empty.after requests).serve (.recognize "ab" "S")).events =
        [[.nonterminal "S"]] := by
  intro requests
  have created : ofProductions [] = .ok empty := rfl
  have unread : Unread empty ([.add (.production .nesting), .nullable] ++
      [.add (.texts "S" (some "~"))]) := .inserted rfl
  obtain ⟨holds, computed⟩ := state_after_history created requests
  have productions : (empty.after requests).productions = [.nesting, .nothing] :=
    holds.productions_eq.trans (by decide)
  refine ⟨created, productions, ?_⟩
  rw [(computed _).1 rfl unread, productions]
  decide

end Grammar

end Earley
