import LispLowering.Proofs.Composition.Traversal
import LispLowering.Proofs.Numbers

/-!
# Counting loops
-/

namespace LispLowering

open Lowering Node Option

/-- The values of the variables that have one. -/
abbrev Store : Type := String → Option Int

/-! ## What a loop does -/

namespace Node

variable (add : Int → Int → Int)

def integer? (σ : Store) : Node → Option Int
  | ⟨.literal (.number x), _⟩ => x.whole?
  | ⟨.identifier x _, _⟩ => σ x
  | ⟨.unary .neg value, _⟩ => (integer? σ value).map fun k => -k
  | ⟨.binary .add left right, _⟩ => Option.map₂ add (integer? σ left) (integer? σ right)
  | _ => none

def answer? (σ : Store) : Node → Option Bool
  | ⟨.binary .lt left right, _⟩ =>
    Option.map₂ (fun a b => decide (a < b)) (integer? add σ left) (integer? add σ right)
  | ⟨.binary .gt left right, _⟩ =>
    Option.map₂ (fun a b => decide (b < a)) (integer? add σ left) (integer? add σ right)
  | ⟨.conditional test consequent alternate, _⟩ =>
    (answer? σ test).bind fun b => if b then answer? σ consequent else answer? σ alternate
  | _ => none

def variableName? : Node → Option String
  | ⟨.variableDeclarator id _, _⟩ => id.identifier?
  | _ => none

/-- Gives declared variables their first values, one after the other. -/
def initialized (σ : Store) : List Node → Option Store
  | [] => some σ
  | ⟨.variableDeclarator ⟨.identifier x _, _⟩ (some init), _⟩ :: rest =>
    (init.integer? add σ).bind fun value => initialized (Function.update σ x (some value)) rest
  | _ => none

/-- A round is entered if the test says so. -/
def entered (test : Node) (σ : Store) : Option Store :=
  if test.answer? add σ = some true then some σ else none

/-- The next round, if the body does not leave the loop. -/
def nextRound (effect : Store → Option Store) (test : Node) (x : String) (next : Node) (σ : Store) :
    Option Store :=
  (effect σ).bind fun σ => (next.integer? add σ).bind fun value =>
    entered add test (Function.update σ x (some value))

/-- The value of the counter `x` when the body is entered, counting rounds from zero. -/
def countFrom (effect : Store → Option Store) (test : Node) (x : String) (next : Node) (σ : Store)
    (n : Nat) : Option Int :=
  ((Option.bind · (nextRound add effect test x next))^[n] (entered add test σ)).bind (· x)

def loopNames (loop : Node) : List String :=
  match loop.kind with
  | .forLoop (some ⟨.variableDeclaration _ declarators, _⟩) _ _ _ => declarators.filterMap variableName?
  | _ => []

/-- The value of the counter in a round of a loop. The variables of the loop have no values until they are
initialized. -/
def counterAt (effect : Store → Option Store) (σ : Store) (loop : Node) (n : Nat) : Option Int :=
  match loop.kind with
  | .forLoop (some ⟨.variableDeclaration _ declarators, _⟩) (some test)
      (some ⟨.assignment ⟨.identifier x _, _⟩ next, _⟩) _ =>
    (initialized add (fun y => if y ∈ loop.loopNames then none else σ y) declarators).bind fun σ =>
      countFrom add effect test x next σ n
  | _ => none

end Node

/-! ## Written numbers -/

/-- A tree is an integer that is written down, possibly behind a minus sign. -/
inductive SExpr.Numeral : SExpr → Int → Prop
  | literal {x : Binary64} {k : Int} {p : Option Position} :
      x.whole? = some k → Numeral (.literal (.number x) p) k
  | negated {x : Binary64} {k : Int} {p q r : Option Position} :
      x.whole? = some k → Numeral (.list [.symbol "-" p, .literal (.number x) q] r) (-k)

variable {c d : Context} {t : SExpr} {node : Node} {k : Int}

theorem SExpr.Numeral.lowered (ht : t.Numeral k) (h : lowerValue Lowering.lower t c = .ok node d) :
    (∀ add σ, node.integer? add σ = some k) ∧ countsDown? node = some (decide (k < 0)) := by
  cases ht with
  | literal hx =>
    cases h
    exact ⟨fun _ _ => hx, congrArg some (Binary64.sign_of_whole hx).1⟩
  | negated hx =>
    cases h
    refine ⟨fun _ _ => congrArg (Option.map _) hx, ?_⟩
    exact congrArg some ((Binary64.sign_of_whole hx).2.trans (by simp))

theorem held_lowered {name y : String} {q : Option Position} {held : Node} (hheld : reference name q = .ok held)
    (hy : held.identifier? = some y) (h : lowerValue Lowering.lower (.symbol name q) c = .ok node d) :
    node = held ∧ countsDown? held = none := by
  obtain ⟨lowered, c', hlowered, h⟩ := bind_ok h
  obtain ⟨target, c'', htarget, hlowered⟩ := bind_ok hlowered
  rw [hheld] at htarget
  cases htarget
  cases hlowered
  obtain ⟨kind, _⟩ := held
  cases kind <;> cases hy
  cases h
  exact ⟨rfl, rfl⟩

/-! ## Loops over ranges -/

theorem Lowering.lowerFor_ok {lower : Lowerer} {whole spec target start stop step : SExpr}
    {body : List SExpr} (hspec : spec.bindingItems = [target, start, stop, step])
    (h : lowerFor lower ⟨whole, "for", spec :: body⟩ c = .ok node d) :
    ∃ counter i c₁ a c₂ b c₃ s c₄ head c₅ statements,
      lowerTarget lower target c = .ok counter c₁ ∧ counter.identifier? = some i ∧
      lowerValue lower start c₁ = .ok a c₂ ∧ lowerValue lower stop c₂ = .ok b c₃ ∧
      lowerValue lower step c₃ = .ok s c₄ ∧
      let p := whole.position
      let current := (ident i).place (counter.position.or p)
      forHead p counter current a b s c₄ = .ok head c₅ ∧ node = forNode p head current statements := by
  unfold lowerFor at h
  dsimp only at h
  rw [hspec] at h
  obtain ⟨counter, c₁, htarget, h⟩ := bind_ok h
  cases hi : counter.identifier? with
  | none =>
    rw [hi] at h
    cases h
  | some i =>
    rw [hi] at h
    obtain ⟨a, c₂, ha, h⟩ := bind_ok h
    obtain ⟨b, c₃, hb, h⟩ := bind_ok h
    obtain ⟨s, c₄, hs, h⟩ := bind_ok h
    obtain ⟨head, c₅, hhead, h⟩ := bind_ok h
    obtain ⟨statements, -, rfl⟩ := map_ok h
    exact ⟨counter, i, c₁, a, c₂, b, c₃, s, c₄, head, c₅, statements, htarget, hi, ha, hb, hs, hhead, rfl⟩

/-- The body of a loop and the body of one that keeps its step in the variable `x` do the same with the
variables in `K`, and the second one leaves `x` alone. -/
structure SameEffect (K : Set String) (x : String) (effect effect' : Store → Option Store) : Prop where
  same : ∀ σ τ, K.EqOn σ τ → Option.Rel K.EqOn (effect σ) (effect' τ)
  kept : ∀ τ, ∀ τ' ∈ effect' τ, τ' x = τ x

section Rounds

variable {add : Int → Int → Int} {a b s : Int} {i x : String} {p q : Option Position} {σ τ : Store}
  {counter start stop step : Node} {K : Set String} {effect effect' : Store → Option Store}

theorem literalHead_answer (hstop : ∀ σ, stop.integer? add σ = some b) (σ : Store) :
    (literalHead p (decide (s < 0)) counter ((ident i).place q) start stop step).test.answer? add σ =
      (σ i).map fun v => if s < 0 then decide (b < v) else decide (v < b) := by
  by_cases hs : s < 0 <;>
    simp [literalHead, hs, hstop, binary, ident, typedIdent, of, place, answer?, integer?]

theorem computedHead_answer (hstop : ∀ σ, stop.integer? add σ = some b) (hx : τ x = some s) :
    (computedHead p x counter ((ident i).place q) start stop step).test.answer? add τ =
      (τ i).map fun v => if 0 < s then decide (v < b) else decide (b < v) := by
  have hzero : Binary64.whole? 0 = some 0 := by decide +kernel
  by_cases hs : 0 < s <;>
    simp [computedHead, hs, hx, hzero, hstop, conditional, binary, ident, typedIdent,
      number, literal, of, place, answer?, integer?]

/-- Two rounds are alike: the variables in `K` have the same values, and the second loop keeps the step. -/
def Alike (K : Set String) (x : String) (s : Int) (σ τ : Store) : Prop := K.EqOn σ τ ∧ τ x = some s

theorem entered_alike {test test' : Node} (h : Alike K x s σ τ)
    (htest : test.answer? add σ = test'.answer? add τ) :
    Option.Rel (Alike K x s) (test.entered add σ) (test'.entered add τ) := by
  unfold entered
  rw [htest]
  split
  · exact .some h
  · exact .none

section

variable {test test' next next' : Node} (hi : i ∈ K) (hx : x ∉ K) (heffect : SameEffect K x effect effect')
  (htest : ∀ σ τ, Alike K x s σ τ → test.answer? add σ = test'.answer? add τ)
  (hnext : ∀ σ τ, Alike K x s σ τ → next.integer? add σ = next'.integer? add τ)

include hi hx heffect htest hnext

theorem nextRound_alike (h : Alike K x s σ τ) :
    Option.Rel (Alike K x s) (nextRound add effect test i next σ)
      (nextRound add effect' test' i next' τ) := by
  have hrel := heffect.same σ τ h.1
  have hkept := heffect.kept τ
  unfold nextRound
  revert hrel hkept
  generalize effect σ = o, effect' τ = o'
  rintro (hrel | -) hkept
  · next σ' τ' =>
    have hne : x ≠ i := fun heq => hx (heq ▸ hi)
    have hafter : Alike K x s σ' τ' := ⟨hrel, (hkept τ' rfl).trans h.2⟩
    rw [bind_some, bind_some, hnext _ _ hafter]
    cases next'.integer? add τ' with
    | none => exact .none
    | some value =>
      have hupdated : Alike K x s (Function.update σ' i (some value)) (Function.update τ' i (some value)) := by
        refine ⟨fun y hy => ?_, ?_⟩
        · by_cases hyi : y = i
          · subst hyi
            simp
          · simpa [hyi] using hrel hy
        · rw [Function.update_of_ne hne]
          exact hafter.2
      exact entered_alike hupdated (htest _ _ hupdated)
  · exact .none

theorem countFrom_alike (h : Alike K x s σ τ) (n : Nat) :
    countFrom add effect test i next σ n = countFrom add effect' test' i next' τ n := by
  have hrounds : Option.Rel (Alike K x s)
      ((Option.bind · (nextRound add effect test i next))^[n] (test.entered add σ))
      ((Option.bind · (nextRound add effect' test' i next'))^[n] (test'.entered add τ)) := by
    induction n with
    | zero => exact entered_alike h (htest _ _ h)
    | succ n ih =>
      rw [Function.iterate_succ_apply', Function.iterate_succ_apply']
      revert ih
      generalize (Option.bind · _)^[n] _ = o, (Option.bind · _)^[n] _ = o'
      rintro (ih | -)
      · exact nextRound_alike hi hx heffect htest hnext ih
      · exact .none
  have hcounter : ∀ {o o'}, Option.Rel (Alike K x s) o o' → o.bind (· i) = o'.bind (· i) := by
    rintro _ _ (h | -)
    · exact h.1 hi
    · rfl
  exact hcounter hrounds

end

theorem countFrom_none {test next : Node} (h : test.answer? add σ ≠ some true) (n : Nat) :
    countFrom add effect test i next σ n = none := by
  have hentered : test.entered add σ = none := if_neg h
  unfold countFrom
  rw [hentered]
  induction n with
  | zero => rfl
  | succ n ih => exact ih

variable {ascribed : Option TypeExpr} {held : Node} {y : String} {r : Option Position}

variable (hstart : ∀ σ, start.integer? add σ = some a)

include hstart

theorem counterAt_literal (down : Bool) (body : List Node)
    (n : Nat) :
    let current := (ident i).place q
    let head := literalHead p down ⟨.identifier i ascribed, r⟩ current start stop step
    (forNode p head current body).counterAt add effect σ n =
      countFrom add effect head.test i ((binary .add current step).place p)
        (Function.update σ i (some a)) n := by
  have hstore : Function.update (fun y => if y ∈ [i] then none else σ y) i (some a) =
      Function.update σ i (some a) := by
    funext y
    by_cases hy : y = i <;> simp [hy]
  show ((start.integer? add _).bind fun value =>
    some (Function.update (fun y => if y ∈ [i] then none else σ y) i (some value))).bind _ = _
  rw [hstart, bind_some, hstore]
  rfl

theorem counterAt_computed (hheld : held.identifier? = some y)
    (hs : σ y = some s) (hyi : y ≠ i) (hyx : y ≠ x) (body : List Node) (n : Nat) :
    let current := (ident i).place q
    let head := computedHead p x ⟨.identifier i ascribed, r⟩ current start stop held
    (forNode p head current body).counterAt add effect σ n =
      countFrom add effect head.test i ((binary .add current ((ident x).place p)).place p)
        (Function.update (Function.update σ i (some a)) x (some s)) n := by
  let hidden : Store := fun y => if y ∈ [i, x] then none else σ y
  have hvalue : held.integer? add (Function.update hidden i (some a)) = some s := by
    obtain ⟨kind, _⟩ := held
    cases kind <;> cases hheld
    simpa [integer?, hidden, hyi, hyx] using hs
  have hstore : Function.update (Function.update hidden i (some a)) x (some s) =
      Function.update (Function.update σ i (some a)) x (some s) := by
    funext y
    by_cases hx : y = x
    · simp [hx]
    · by_cases hi : y = i <;> simp [hi, hx, hidden, Function.update_apply]
  show ((start.integer? add _).bind fun value =>
    (held.integer? add (Function.update hidden i (some value))).bind fun step =>
      some (Function.update (Function.update hidden i (some value)) x (some step))).bind _ = _
  rw [hstart, bind_some, hvalue, bind_some, hstore]
  rfl

theorem heads_alike_iff
    (hstop : ∀ σ, stop.integer? add σ = some b) (hstep : ∀ σ, step.integer? add σ = some s)
    (hheld : held.identifier? = some y) (hs : σ y = some s) (hyi : y ≠ i) (hyx : y ≠ x) (hi : i ∈ K)
    (hx : x ∉ K) (heffect : SameEffect K x effect effect') (body body' : List Node) :
    let current := (ident i).place q
    let written := literalHead p (decide (s < 0)) ⟨.identifier i ascribed, r⟩ current start stop step
    let kept := computedHead p x ⟨.identifier i ascribed, r⟩ current start stop held
    (∀ n, (forNode p written current body).counterAt add effect σ n =
      (forNode p kept current body').counterAt add effect' σ n) ↔ s ≠ 0 ∨ a = b := by
  intro current written kept
  rw [forall_congr' fun n => Eq.congr (counterAt_literal hstart _ body n)
    (counterAt_computed hstart hheld hs hyi hyx body' n)]
  have hxi : x ≠ i := fun heq => hx (heq ▸ hi)
  generalize hσ₀ : Function.update σ i (some a) = σ₀
  generalize hτ₀ : Function.update σ₀ x (some s) = τ₀
  have hσi : σ₀ i = some a := by simp [← hσ₀]
  have hτi : τ₀ i = some a := by simp [← hτ₀, hxi.symm, hσi]
  have hfirst : Alike K x s σ₀ τ₀ := by
    refine ⟨fun z hz => ?_, by simp [← hτ₀]⟩
    have hzx : z ≠ x := fun heq => hx (heq ▸ hz)
    simp [← hτ₀, hzx]
  have hwritten : ∀ σ, written.test.answer? add σ = _ := literalHead_answer hstop
  have hkept : ∀ {τ}, τ x = some s → kept.test.answer? add τ = _ := computedHead_answer hstop
  by_cases hzero : s = 0
  · -- the written step counts up and the kept one down, so the first tests decide
    subst hzero
    have hup : written.test.answer? add σ₀ = some (decide (a < b)) := by simp [hwritten, hσi]
    have hdown : kept.test.answer? add τ₀ = some (decide (b < a)) := by simp [hkept hfirst.2, hτi]
    constructor
    · intro h
      have h0 : (written.test.entered add σ₀).bind (· i) = (kept.test.entered add τ₀).bind (· i) := h 0
      unfold entered at h0
      rw [hup, hdown] at h0
      rcases lt_trichotomy a b with hlt | heq | hlt
      · simp [hlt, hlt.not_gt, hσi] at h0
      · exact .inr heq
      · simp [hlt, hlt.not_gt, hτi] at h0
    · rintro (h | rfl) n
      · exact absurd rfl h
      · have hstays : written.test.answer? add σ₀ ≠ some true := by simp [hup]
        have hstays' : kept.test.answer? add τ₀ ≠ some true := by simp [hdown]
        exact (countFrom_none hstays n).trans (countFrom_none hstays' n).symm
  · refine iff_of_true (countFrom_alike hi hx heffect ?_ ?_ hfirst) (.inl hzero)
    · intro σ τ h
      rw [hwritten, hkept h.2, h.1 hi]
      split <;> split <;> first | rfl | omega
    · intro σ τ h
      show Option.map₂ add (σ i) (step.integer? add σ) = Option.map₂ add (τ i) (τ x)
      rw [h.1 hi, h.2, hstep]

end Rounds

/-- A `for` loop whose step is written down and one whose step is the same value of a variable enter their
bodies with the same values of the counter if and only if the step is not zero or there is nothing to
count. -/
theorem step_written_or_held (add : Int → Int → Int) {c d d' : Context} {p q r : Option Position}
    {spec spec' target start stop step : SExpr} {body body' : List SExpr} {a b s : Int} {name y i x : String}
    {loop loop' held : Node} {σ : Store} {K : Set String} {effect effect' : Store → Option Store}
    (hspec : spec.bindingItems = [target, start, stop, step])
    (hspec' : spec'.bindingItems = [target, start, stop, .symbol name q])
    (hstart : start.Numeral a) (hstop : stop.Numeral b) (hstep : step.Numeral s)
    (hheld : reference name q = .ok held) (hy : held.identifier? = some y) (hs : σ y = some s)
    (hloop : Lowering.lower (.list (.symbol "for" r :: spec :: body) p) c = .ok (some loop) d)
    (hloop' : Lowering.lower (.list (.symbol "for" r :: spec' :: body') p) c = .ok (some loop') d')
    (hnames : loop'.loopNames = [i, x]) (hyi : y ≠ i) (hyx : y ≠ x) (hi : i ∈ K) (hx : x ∉ K)
    (heffect : SameEffect K x effect effect') :
    (∀ n, loop.counterAt add effect σ n = loop'.counterAt add effect' σ n) ↔ s ≠ 0 ∨ a = b := by
  have hmeaning : HeadMeaning.ofName "for" = .special .forLoop := rfl
  obtain ⟨node, hnode, heq⟩ := lower_special_ok hmeaning hloop
  obtain ⟨node', hnode', heq'⟩ := lower_special_ok hmeaning hloop'
  cases heq
  cases heq'
  obtain ⟨counter, j, c₁, first, c₂, last, c₃, value, c₄, head, c₅, statements, htarget, hj, hfirst, hlast,
    hvalue, hhead, rfl⟩ := lowerFor_ok hspec hnode
  obtain ⟨counter', j', c₁', first', c₂', last', c₃', value', c₄', head', c₅', statements', htarget', hj',
    hfirst', hlast', hvalue', hhead', rfl⟩ := lowerFor_ok hspec' hnode'
  -- up to the step the two forms are lowered in the same way
  cases htarget.symm.trans htarget'
  cases hj.symm.trans hj'
  cases hfirst.symm.trans hfirst'
  cases hlast.symm.trans hlast'
  obtain ⟨hstep, hdown⟩ := hstep.lowered hvalue
  obtain ⟨hheld, hunknown⟩ := held_lowered hheld hy hvalue'
  simp only [forHead, hdown] at hhead
  simp only [hheld, forHead, hunknown] at hhead'
  cases hhead
  cases hhead'
  obtain ⟨kind, _⟩ := counter
  cases kind <;> cases hj
  cases hnames
  exact heads_alike_iff ((hstart.lowered hfirst).1 add) ((hstop.lowered hlast).1 add) (hstep add) hy hs hyi
    hyx hi hx heffect statements statements'

/-- `(for (i 0 3 step) (f i))`. -/
def upToThree (step : SExpr) : SExpr :=
  .list [.symbol "for" none,
    .list [.symbol "i" none, .literal (.number 0) none, .literal (.number 3) none, step] none,
    .list [.symbol "f" none, .symbol "i" none] none] none

/-- The value of the counter in a round of a loop, where the body leaves all variables alone, and those
around the loop have the value `k`. -/
def counterIn (tree : SExpr) (k : Int) (n : Nat) : Option Int :=
  match Lowering.lower tree (Context.start "" {}) with
  | .ok (some loop) _ => loop.counterAt (· + ·) some (fun _ => some k) n
  | _ => none

/-- A step of one. -/
theorem step_written_or_held_one :
    counterIn (upToThree (.literal (.number 1) none)) 1 = counterIn (upToThree (.symbol "s" none)) 1 := by
  have hloop : Lowering.lower (upToThree (.literal (.number 1) none)) (Context.start "" {}) =
    .ok (some _) _ := rfl
  have hloop' : Lowering.lower (upToThree (.symbol "s" none)) (Context.start "" {}) = .ok (some _) _ := rfl
  have hsame : SameEffect {"i"} "step_0" some some := ⟨fun _ _ h => .some h, by simp⟩
  have hone := (step_written_or_held (· + ·) (y := "s") (σ := fun _ => some 1) rfl rfl
    (.literal (k := 0) (by decide +kernel)) (.literal (k := 3) (by decide +kernel))
    (.literal (k := 1) (by decide +kernel)) rfl rfl rfl hloop hloop' rfl (by decide) (by decide)
    (Set.mem_singleton "i") (fun h => absurd h (by decide)) hsame).mpr
    (.inl one_ne_zero)
  unfold counterIn
  rw [hloop, hloop']
  exact funext hone

/-- A step of zero: the loop counts up if it is written and down if it is not. -/
theorem zero_step_differs : counterIn (upToThree (.literal (.number 0) none)) 0 0 = some 0 ∧
      counterIn (upToThree (.symbol "s" none)) 0 0 = none := by
  decide +kernel

end LispLowering
