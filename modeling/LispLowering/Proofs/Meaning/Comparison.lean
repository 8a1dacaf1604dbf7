import LispLowering.Proofs.Hygiene
import LispLowering.Proofs.Meaning.Command

/-!
# Chains of comparisons
-/

namespace LispLowering

open Lowering Node Command List Nat

variable {ω V E : Type} {x y : String}

/-! ## Variables -/

/-- The values of the variables, and all else that code can change. -/
structure Memory (ω V : Type) where
  vars : String → V
  world : ω

namespace Memory

variable (m : Memory ω V) (v w : V)

/-- Gives a variable another value. -/
def set (x : String) : Memory ω V := { m with vars := Function.update m.vars x v }

@[simp] theorem set_set : (m.set v x).set w x = m.set w x := by simp [set]

@[simp] theorem set_self : m.set (m.vars x) x = m := by simp [set]

@[simp] theorem vars_set : (m.set v x).vars x = v := by simp [set]

theorem vars_set_of_ne (h : y ≠ x) : (m.set v x).vars y = m.vars y := by simp [set, h]

theorem set_comm (h : y ≠ x) : (m.set v x).set w y = (m.set w y).set v x := by
  simp [set, Function.update_comm h]

end Memory

namespace Command

variable {a : Command (Memory ω V) V E} {k : V → Command (Memory ω V) V E} {v w : V}
  {o : Completion V E}

def looking (f : Memory ω V → V) : Command (Memory ω V) V E := fun m o m' => o = .normal (f m) ∧ m' = m

def storing (x : String) (v : V) : Command (Memory ω V) V E := fun m o m' =>
  o = .normal v ∧ m' = m.set v x

def declaring (initial : V) (x : String) (a : Command (Memory ω V) V E) : Command (Memory ω V) V E :=
  fun m o m' => ∃ u, a (m.set initial x) o u ∧ m' = u.set (m.vars x) x

def declaringAll (initial : V) (names : List String) (a : Command (Memory ω V) V E) :
    Command (Memory ω V) V E :=
  names.foldr (declaring initial) a

/-- The code neither reads nor changes the variable. -/
def Ignores (x : String) (a : Command (Memory ω V) V E) : Prop :=
  ∀ m o m', a m o m' → m'.vars x = m.vars x ∧ ∀ v, a (m.set v x) o (m'.set v x)

theorem Ignores.set_iff (h : a.Ignores x) {m u : Memory ω V} :
    a (m.set v x) o u ↔ ∃ m', a m o m' ∧ m'.vars x = m.vars x ∧ u = m'.set v x := by
  constructor
  · intro ha
    obtain ⟨hvars, hset⟩ := h _ _ _ ha
    rw [Memory.vars_set] at hvars
    refine ⟨u.set (m.vars x) x, ?_, by simp, by simp [← hvars]⟩
    simpa using hset (m.vars x)
  · rintro ⟨m', ha, -, rfl⟩
    exact (h _ _ _ ha).2 v

theorem ignores_done (o : Completion V E) : (done o : Command (Memory ω V) V E).Ignores x := by
  rintro m _ _ ⟨rfl, rfl⟩
  exact ⟨rfl, fun _ => ⟨rfl, rfl⟩⟩

theorem ignores_variable (h : y ≠ x) : (looking (·.vars y) : Command (Memory ω V) V E).Ignores x := by
  rintro m _ _ ⟨rfl, rfl⟩
  exact ⟨rfl, fun v => ⟨congrArg _ (Memory.vars_set_of_ne _ _ h).symm, rfl⟩⟩

theorem ignores_storing (h : y ≠ x) (w : V) : (storing y w : Command (Memory ω V) V E).Ignores x := by
  rintro m _ _ ⟨rfl, rfl⟩
  exact ⟨Memory.vars_set_of_ne _ _ h.symm, fun v => ⟨rfl, (Memory.set_comm _ _ _ h).symm⟩⟩

theorem Ignores.next (ha : a.Ignores x) (hk : ∀ v, (k v).Ignores x) : (a.next k).Ignores x := by
  rintro m o m' (⟨value, u, hrun, hrest⟩ | ⟨habrupt, hrun⟩)
  · obtain ⟨hvars, hset⟩ := ha _ _ _ hrun
    obtain ⟨hvars', hset'⟩ := hk value _ _ _ hrest
    exact ⟨hvars'.trans hvars, fun v => .inl ⟨value, _, hset v, hset' v⟩⟩
  · obtain ⟨hvars, hset⟩ := ha _ _ _ hrun
    exact ⟨hvars, fun v => .inr ⟨habrupt, hset v⟩⟩

theorem Ignores.declaring (h : y ≠ x) (ha : a.Ignores x) : (a.declaring w y).Ignores x := by
  rintro m o _ ⟨u, hrun, rfl⟩
  obtain ⟨hvars, hset⟩ := ha _ _ _ hrun
  rw [Memory.vars_set_of_ne _ _ h.symm] at hvars
  refine ⟨by rw [Memory.vars_set_of_ne _ _ h.symm, hvars], fun v => ⟨u.set v x, ?_, ?_⟩⟩
  · rw [Memory.set_comm _ _ _ h]
    exact hset v
  · rw [Memory.vars_set_of_ne _ _ h, Memory.set_comm _ _ _ h]

theorem Ignores.declaring_next (ha : a.Ignores x) (k : V → Command (Memory ω V) V E) :
    (a.next k).declaring w x = a.next fun value => (k value).declaring w x := by
  funext m o m'
  apply propext
  constructor
  · rintro ⟨u, ⟨value, u', hrun, hrest⟩ | ⟨habrupt, hrun⟩, rfl⟩
    · obtain ⟨t, ht, hvars, rfl⟩ := ha.set_iff.mp hrun
      exact .inl ⟨value, t, ht, u, hrest, by rw [hvars]⟩
    · obtain ⟨t, hrun, hvars, rfl⟩ := ha.set_iff.mp hrun
      refine .inr ⟨habrupt, ?_⟩
      rwa [Memory.set_set, ← hvars, Memory.set_self]
  · rintro (⟨value, t, hrun, u, hrest, rfl⟩ | ⟨habrupt, hrun⟩)
    · obtain ⟨hvars, hset⟩ := ha _ _ _ hrun
      exact ⟨u, .inl ⟨value, _, hset w, hrest⟩, by rw [hvars]⟩
    · obtain ⟨hvars, hset⟩ := ha _ _ _ hrun
      exact ⟨_, .inr ⟨habrupt, hset w⟩, by rw [Memory.set_set, ← hvars, Memory.set_self]⟩

theorem declaring_done : (done o : Command (Memory ω V) V E).declaring w x = done o := by
  funext m o' m'
  apply propext
  constructor
  · rintro ⟨_, ⟨rfl, rfl⟩, rfl⟩
    exact ⟨rfl, by simp⟩
  · rintro ⟨rfl, rfl⟩
    exact ⟨_, ⟨rfl, rfl⟩, by simp⟩

theorem looking_next (f : Memory ω V → V) (m : Memory ω V) :
    (looking f : Command (Memory ω V) V E).next k m = k (f m) m :=
  next_of_normal (fun _ _ => Iff.rfl) k

theorem storing_next (m : Memory ω V) :
    (storing x v : Command (Memory ω V) V E).next k m = k v (m.set v x) :=
  next_of_normal (fun _ _ => Iff.rfl) k

theorem Ignores.declaring_storing (ha : a.Ignores x) :
    ((storing x v).next fun _ => a).declaring w x = a := by
  funext m o m'
  apply propext
  constructor
  · rintro ⟨u, hrun, rfl⟩
    rw [storing_next, Memory.set_set] at hrun
    obtain ⟨t, hrun, hvars, rfl⟩ := ha.set_iff.mp hrun
    rwa [Memory.set_set, ← hvars, Memory.set_self]
  · intro hrun
    obtain ⟨hvars, hset⟩ := ha _ _ _ hrun
    refine ⟨m'.set v x, ?_, by rw [Memory.set_set, ← hvars, Memory.set_self]⟩
    rw [storing_next, Memory.set_set]
    exact hset v

theorem declaringAll_next {names : List String} (ha : ∀ x ∈ names, a.Ignores x)
    (k : V → Command (Memory ω V) V E) :
    (a.next k).declaringAll w names = a.next fun value => (k value).declaringAll w names := by
  induction names with
  | nil => rfl
  | cons x rest ih =>
    have hrest := ih fun y hy => ha y (.tail _ hy)
    have hx := (ha x (.head _)).declaring_next (w := w) fun value => (k value).declaringAll w rest
    calc (a.next k).declaringAll w (x :: rest)
      _ = ((a.next k).declaringAll w rest).declaring w x := rfl
      _ = a.next fun value => ((k value).declaringAll w rest).declaring w x := by rw [hrest, hx]

theorem declaringAll_done (names : List String) :
    (done o : Command (Memory ω V) V E).declaringAll w names = done o := by
  induction names with
  | nil => rfl
  | cons x rest ih => exact (congrArg (declaring w x) ih).trans declaring_done

end Command

def BinaryOp.isComparison : BinaryOp → Bool
  | .lt | .gt | .le | .ge => true
  | _ => false

/-! ## Expressions -/

/-- The values, and the code that is not looked into, which may have any effect. It does nothing with a
variable whose name is not in it. -/
structure Host (ω V E : Type) where
  undefined : V
  bool : Bool → V
  isTrue : V → Bool
  isTrue_bool : ∀ b, isTrue (bool b) = b
  constant : Literal → V
  compare : BinaryOp → V → V → Except E Bool
  act : Node → V → Command (Memory ω V) V E
  act_ignores : ∀ {x node}, node.Lacks x → ∀ this, (act node this).Ignores x

namespace Host

variable (H : Host ω V E)

mutual

/-- What an expression does with a value for `this`. -/
def eval : Node → V → Command (Memory ω V) V E
  | ⟨.identifier x _, _⟩, _ => .looking (·.vars x)
  | ⟨.literal value, _⟩, _ => .done (.normal (H.constant value))
  | ⟨.thisValue, _⟩, this => .done (.normal this)
  | ⟨.binary op left right, p⟩, this =>
    if op.isComparison then
      (eval left this).next fun a => (eval right this).next fun b =>
        .done (.ofResult ((H.compare op a b).map H.bool))
    else H.act ⟨.binary op left right, p⟩ this
  | ⟨.logical .and left right, _⟩, this =>
    (eval left this).next fun a => if H.isTrue a then eval right this else .done (.normal a)
  | ⟨.assignment ⟨.identifier x _, _⟩ value, _⟩, this => (eval value this).next (.storing x)
  | ⟨.call ⟨.function ⟨_, [], body, false, false, true, _, _⟩, _⟩ [] false, _⟩, this =>
    evalBody body this
  | ⟨.await ⟨.call ⟨.function ⟨_, [], body, true, false, true, _, _⟩, _⟩ [] false, _⟩, _⟩, this =>
    evalBody body this
  | ⟨.yield (some ⟨.call ⟨.member ⟨.function ⟨_, [], body, _, true, false, _, _⟩, _⟩
      ⟨.identifier "call" _, _⟩ false, _⟩ [receiver] false, _⟩) true, _⟩, this =>
    (eval receiver this).next fun self => evalBody body self
  | node, this => H.act node this

def evalBody : List Node → V → Command (Memory ω V) V E
  | ⟨.variableDeclaration _ [⟨.variableDeclarator ⟨.identifier x _, _⟩ none, _⟩], _⟩ :: rest, this =>
    (evalBody rest this).declaring H.undefined x
  | ⟨.returnStatement (some value), _⟩ :: _, this => eval value this
  | body, this => H.act ⟨.block body, none⟩ this

end

theorem ignores_of_lacks : (∀ node this, Lacks x node → (H.eval node this).Ignores x) ∧
      ∀ body this, LackIn x body → (H.evalBody body this).Ignores x := by
  apply Host.eval.mutual_induct
  case case1 =>
    intro y _ _ _ hlacks
    exact ignores_variable hlacks.1
  case case2 | case3 =>
    intros
    exact ignores_done _
  case case4 =>
    intro op left right p this hop hleft hright hlacks
    rw [eval, if_pos hop]
    exact (hleft hlacks.2.1).next fun _ => (hright hlacks.2.2).next fun _ => ignores_done _
  case case5 =>
    intro op left right p this hop hlacks
    rw [eval, if_neg hop]
    exact H.act_ignores hlacks this
  case case6 =>
    intro left right p this hleft hright hlacks
    refine (hleft hlacks.2.1).next fun a => ?_
    split
    · exact hright hlacks.2.2
    · exact ignores_done _
  case case7 =>
    intro y _ _ value p this hvalue hlacks
    exact (hvalue hlacks.2.2).next (ignores_storing hlacks.2.1.1)
  case case8 =>
    intro _ body _ _ _ _ this hbody hlacks
    exact hbody hlacks.2.1.2.2
  case case9 =>
    intro _ body _ _ _ _ _ this hbody hlacks
    exact hbody hlacks.2.2.1.2.2
  case case10 =>
    intro _ body _ _ _ _ _ _ _ receiver _ _ this hrecv hbody hlacks
    exact (hrecv hlacks.2.2.2.1).next fun self => hbody self hlacks.2.2.1.2.1.2.2
  case case11 =>
    intro node this _ _ _ _ _ _ _ _ _ hlacks
    rw [eval] <;> first | assumption | exact H.act_ignores hlacks this
  case case12 =>
    intro _ y _ _ _ _ rest this hrest hlacks
    exact (hrest hlacks.2).declaring hlacks.1.2.1.2.1.1
  case case13 =>
    intro value _ _ this hvalue hlacks
    exact hvalue hlacks.1.2
  case case14 =>
    intro body this _ _ hlacks
    have hblock : Lacks x ⟨.block body, none⟩ := ⟨trivial, hlacks⟩
    rw [evalBody] <;> first | assumption | exact H.act_ignores hblock this

/-! ## What is emitted -/

theorem eval_wrapped (body : List Node) (suspension : Suspension) (p : Option Position) (this : V) :
    H.eval (wrapped body suspension p) this = H.evalBody body this := by
  obtain ⟨awaits, yields⟩ := suspension
  cases yields with
  | false => cases awaits <;> rfl
  | true => exact done_next _ _

theorem evalBody_declarations (p : Option Position) (names : List String) (value : Node) (this : V) :
    H.evalBody (names.map (keptDeclaration p) ++ [⟨.returnStatement (some value), p⟩]) this =
      (H.eval value this).declaringAll H.undefined names := by
  induction names with
  | nil => rfl
  | cons x rest ih => exact congrArg (Command.declaring H.undefined x) ih

def conjunction (this : V) : Node → List Node → Command (Memory ω V) V E
  | first, [] => H.eval first this
  | first, second :: rest =>
    (H.eval first this).next fun a =>
      if H.isTrue a then conjunction this second rest else .done (.normal a)

theorem eval_and (right : Node) : H.eval ((logical .and left right).place p) this =
      (H.eval left this).next fun a => if H.isTrue a then H.eval right this else .done (.normal a) := by
  rw [logical, of, place, eval]

theorem eval_foldl_and (p : Option Position) (this : V) (first : Node) (rest : List Node) :
    H.eval (rest.foldl (fun left right => (logical .and left right).place p) first) this =
      H.conjunction this first rest := by
  induction rest generalizing first with
  | nil => rfl
  | cons second rest ih =>
    rw [foldl_cons, ih]
    cases rest with
    | nil => rw [conjunction, conjunction, conjunction, eval_and]
    | cons third rest =>
      rw [conjunction, conjunction, conjunction, eval_and, next_assoc]
      congr 1
      funext a
      by_cases ha : H.isTrue a
      · rw [if_pos ha, if_pos ha]
      · rw [if_neg ha, if_neg ha, done_next, if_neg ha]

theorem eval_comparisonValue (suspension : Suspension) (names : List String)
    (test : Node) (tests : List Node) :
    H.eval (comparisonValue p suspension ⟨names.map (keptDeclaration p), test :: tests⟩) this =
      (H.conjunction this test tests).declaringAll H.undefined names := by
  rw [← H.eval_foldl_and p]
  cases names with
  | nil => rfl
  | cons x rest => exact (H.eval_wrapped _ suspension p this).trans (H.evalBody_declarations p _ _ this)

/-- Goes on if a comparison holds, and is false otherwise. -/
def provided (op : BinaryOp) (a b : V) (k : Command (Memory ω V) V E) : Command (Memory ω V) V E :=
  match H.compare op a b with
  | .error e => .done (.thrown e)
  | .ok false => .done (.normal (H.bool false))
  | .ok true => k

/-- What a chain of comparisons does after an operand: it evaluates the next operand and goes on if the
comparison of the two holds. -/
def chainFrom (op : BinaryOp) : V → List (Command (Memory ω V) V E) → Command (Memory ω V) V E
  | _, [] => .done (.normal (H.bool true))
  | before, operand :: rest =>
    operand.next fun value => H.provided op before value (chainFrom op value rest)

/-- What a chain of comparisons does. -/
def chain (op : BinaryOp) : List (Command (Memory ω V) V E) → Command (Memory ω V) V E
  | [] => .done (.normal (H.bool true))
  | first :: rest => first.next fun value => H.chainFrom op value rest

variable {op : BinaryOp} {a b : V} {k : Command (Memory ω V) V E} {this : V}

theorem ignores_provided (hk : k.Ignores x) : (H.provided op a b k).Ignores x := by
  unfold provided
  split
  · exact ignores_done _
  · exact ignores_done _
  · exact hk

theorem ignores_chainFrom {operands : List (Command (Memory ω V) V E)}
    (h : ∀ operand ∈ operands, operand.Ignores x) : (H.chainFrom op a operands).Ignores x := by
  induction operands generalizing a with
  | nil => exact ignores_done _
  | cons operand rest ih =>
    obtain ⟨hoperand, hrest⟩ := forall_mem_cons.mp h
    exact hoperand.next fun _ => H.ignores_provided (ih hrest)

theorem eval_comparison (hop : op.isComparison = true) (left right : Node) (p : Option Position) :
    H.eval ((binary op left right).place p) this =
      (H.eval left this).next fun a => (H.eval right this).next fun b =>
        H.provided op a b (.done (.normal (H.bool true))) := by
  rw [binary, of, place, eval, if_pos hop]
  congr 1
  funext a
  congr 1
  funext b
  unfold provided
  rcases H.compare op a b with e | _ | _ <;> rfl

theorem provided_next : ((H.provided op a b (.done (.normal (H.bool true)))).next fun r =>
    if H.isTrue r then k else .done (.normal r)) = H.provided op a b k := by
  unfold provided
  rcases H.compare op a b with e | _ | _
  · exact Ends.next_eq (ends_done (o := .thrown e) trivial) _
  · simp only [done_next, H.isTrue_bool]
    rfl
  · simp only [done_next, H.isTrue_bool]
    rfl

theorem declaringAll_conjunction (hop : op.isComparison = true) (left right : Node) (p : Option Position)
    {names : List String} (hlacks : ∀ x ∈ names, left.Lacks x ∧ right.Lacks x) (second : Node)
    (rest : List Node) : (H.conjunction this ((binary op left right).place p) (second :: rest)).declaringAll
        H.undefined names = (H.eval left this).next fun a => (H.eval right this).next fun b =>
        H.provided op a b ((H.conjunction this second rest).declaringAll H.undefined names) := by
  have hignores : ∀ x ∈ names, (H.eval ((binary op left right).place p) this).Ignores x :=
    fun x hx => H.ignores_of_lacks.1 _ _ ⟨trivial, hlacks x hx⟩
  have hbranch (r : V) : Command.declaringAll H.undefined names
      (if H.isTrue r then H.conjunction this second rest else .done (.normal r)) =
      if H.isTrue r then (H.conjunction this second rest).declaringAll H.undefined names
      else .done (.normal r) := by
    split
    · rfl
    · exact declaringAll_done names
  rw [conjunction, declaringAll_next hignores, eval_comparison H hop, next_assoc]
  simp only [hbranch, next_assoc, provided_next]

theorem eval_of_isRepeatable {operand : Node} (h : isRepeatable operand = true) (this : V) :
    ∃ f, H.eval operand this = .looking f := by
  obtain ⟨kind, p⟩ := operand
  cases kind with
  | identifier x _ => exact ⟨(·.vars x), rfl⟩
  | literal value => exact ⟨fun _ => H.constant value, rfl⟩
  | thisValue => exact ⟨fun _ => this, rfl⟩
  | _ => cases h

theorem provided_congr {k k' : Command (Memory ω V) V E} {m : Memory ω V} (h : k m = k' m) :
    H.provided op a b k m = H.provided op a b k' m := by
  unfold provided
  rcases H.compare op a b with e | _ | _
  · rfl
  · rfl
  · exact h

theorem repeated_operand (f : Memory ω V → V) (k : V → Command (Memory ω V) V E) :
    ((Command.looking f).next fun b => H.provided op a b ((Command.looking f).next k)) =
      (Command.looking f).next fun b => H.provided op a b (k b) := by
  funext m
  rw [looking_next, looking_next]
  exact H.provided_congr (looking_next f m)

theorem kept_operand {k : V → Command (Memory ω V) V E} (hk : ∀ b, (k b).Ignores x) :
    ((Command.storing x b).next fun b =>
      H.provided op a b ((Command.looking (·.vars x)).next k)).declaring H.undefined x =
      H.provided op a b (k b) := by
  have hread : ((Command.storing x b).next fun b =>
      H.provided op a b ((Command.looking (·.vars x)).next k)) =
      (Command.storing x b).next fun _ => H.provided op a b (k b) := by
    funext m
    rw [storing_next, storing_next]
    refine H.provided_congr ?_
    rw [looking_next, Memory.vars_set]
  rw [hread]
  exact (H.ignores_provided (hk b)).declaring_storing

variable {p : Option Position} {left operand : Node} {operands : List Node} {c : Context}

/-- The names that a chain may draw are in none of the nodes. -/
def Free (c : Context) (count : Nat) (nodes : List Node) : Prop :=
  ∀ n, c.nextFresh ≤ n → n < c.nextFresh + count → ∀ node ∈ nodes, node.Lacks (temporary "cmp" n)

/-- The comparisons from a state on do what the chain is to do, with the variables that they declare. -/
def Compares (op : BinaryOp) (p : Option Position) (left : Node) (operands : List Node) (c : Context) :
    Prop :=
  ∃ names test tests d,
    compareFrom op p left operands c = .ok ⟨names.map (keptDeclaration p), test :: tests⟩ d ∧
    (∀ x ∈ names, ∃ n, c.nextFresh ≤ n ∧ n < c.nextFresh + operands.length ∧ x = temporary "cmp" n) ∧
    ∀ this, (H.conjunction this test tests).declaringAll H.undefined names =
      (H.eval left this).next fun v => H.chainFrom op v (operands.map (H.eval · this))

theorem compares_repeated (hop : op.isComparison = true) (hrepeat : isRepeatable operand = true)
    (hoperands : operands ≠ []) (hfree : Free c (operands.length + 1) [left, operand])
    (h : H.Compares op p operand operands c) : H.Compares op p left (operand :: operands) c := by
  obtain ⟨names, test, tests, d, hrun, hnames, hmeans⟩ := h
  have hdrawn : ∀ x ∈ names, ∃ n, c.nextFresh ≤ n ∧ n < c.nextFresh + (operands.length + 1) ∧
      x = temporary "cmp" n := by
    intro x hx
    obtain ⟨n, hlow, hhigh, rfl⟩ := hnames x hx
    exact ⟨n, hlow, lt_succ_of_lt hhigh, rfl⟩
  have hapart : ∀ x ∈ names, left.Lacks x ∧ operand.Lacks x := by
    intro x hx
    obtain ⟨n, hlow, hhigh, rfl⟩ := hdrawn x hx
    exact ⟨hfree n hlow hhigh left (by simp), hfree n hlow hhigh operand (by simp)⟩
  refine ⟨names, (binary op left operand).place p, test :: tests, d, ?_, hdrawn, fun this => ?_⟩
  · obtain ⟨next, rest, rfl⟩ := exists_cons_of_ne_nil hoperands
    unfold compareFrom
    rw [if_pos hrepeat]
    exact bind_ok_iff.mpr ⟨_, d, hrun, rfl⟩
  · obtain ⟨f, hf⟩ := H.eval_of_isRepeatable hrepeat this
    rw [H.declaringAll_conjunction hop left operand p hapart, hmeans, hf]
    simp only [repeated_operand, map_cons, chainFrom, hf]

def keeping (p : Option Position) (x : String) (operand : Node) : Node :=
  (assign ((ident x).place p) operand).place p

theorem compares_kept (hop : op.isComparison = true) (hrepeat : isRepeatable operand = false)
    (hoperands : operands ≠ []) (hfree : Free c (operands.length + 1) (left :: operand :: operands))
    (hx : x = temporary "cmp" c.nextFresh)
    (h : H.Compares op p ((ident x).place p) operands { c with nextFresh := c.nextFresh + 1 }) :
    H.Compares op p left (operand :: operands) c := by
  obtain ⟨names, test, tests, d, hrun, hnames, hmeans⟩ := h
  have hdrawn : ∀ y ∈ names, ∃ n, c.nextFresh < n ∧ n < c.nextFresh + (operands.length + 1) ∧
      y = temporary "cmp" n := by
    intro y hy
    obtain ⟨n, hlow, hhigh, rfl⟩ := hnames y hy
    exact ⟨n, hlow, lt_of_lt_of_eq hhigh (add_right_comm ..), rfl⟩
  have hapart : ∀ y ∈ names, left.Lacks y ∧ (keeping p x operand).Lacks y := by
    intro y hy
    obtain ⟨n, hlow, hhigh, rfl⟩ := hdrawn y hy
    have hall := hfree n hlow.le hhigh
    have hne : x ≠ temporary "cmp" n := by
      intro heq
      obtain ⟨-, rfl⟩ := temporary_injective (by decide) (by decide) (hx.symm.trans heq)
      exact absurd hlow (Nat.lt_irrefl _)
    exact ⟨hall left (by simp), trivial, ⟨hne, trivial⟩, hall operand (by simp)⟩
  have hself : ∀ node ∈ left :: operand :: operands, ∀ this, (H.eval node this).Ignores x := by
    intro node hnode this
    rw [hx]
    exact H.ignores_of_lacks.1 node this (hfree _ (le_refl _) (by omega) node hnode)
  refine ⟨x :: names, (binary op left (keeping p x operand)).place p, test :: tests, d, ?_, ?_,
    fun this => ?_⟩
  · obtain ⟨next, rest, rfl⟩ := exists_cons_of_ne_nil hoperands
    subst hx
    unfold compareFrom
    rw [if_neg (by simp [hrepeat])]
    exact bind_ok_iff.mpr ⟨_, _, rfl, bind_ok_iff.mpr ⟨_, d, hrun, rfl⟩⟩
  · refine forall_mem_cons.mpr ⟨⟨c.nextFresh, le_refl _, by simp, hx⟩, fun y hy => ?_⟩
    obtain ⟨n, hlow, hhigh, rfl⟩ := hdrawn y hy
    exact ⟨n, hlow.le, hhigh, rfl⟩
  · have hleft : (H.eval left this).Ignores x := hself left (by simp) this
    have hoperand : (H.eval operand this).Ignores x := hself operand (by simp) this
    have hchain (b : V) : (H.chainFrom op b (operands.map (H.eval · this))).Ignores x := by
      apply H.ignores_chainFrom
      simp only [mem_map, forall_exists_index, and_imp, forall_apply_eq_imp_iff₂]
      exact fun node hnode => hself node (by simp [hnode]) this
    have hread : H.eval ((ident x).place p) this = .looking (·.vars x) := rfl
    have hkeep : H.eval (keeping p x operand) this = (H.eval operand this).next (.storing x) := rfl
    -- `x` is declared in front, but both operands ignore it, so it may as well be declared behind them
    calc (H.conjunction this _ (test :: tests)).declaringAll H.undefined (x :: names)
      _ = Command.declaring H.undefined x ((H.eval left this).next fun a => (H.eval operand this).next fun b =>
            (Command.storing x b).next fun b => H.provided op a b ((Command.looking (·.vars x)).next fun v =>
              H.chainFrom op v (operands.map (H.eval · this)))) := by
        simp only [Command.declaringAll, foldr_cons]
        rw [← Command.declaringAll, H.declaringAll_conjunction hop left _ p hapart, hmeans, hread, hkeep]
        simp only [next_assoc]
      _ = (H.eval left this).next fun a => (H.eval operand this).next fun b => H.provided op a b
            (H.chainFrom op b (operands.map (H.eval · this))) := by
        rw [hleft.declaring_next]
        simp only [hoperand.declaring_next, H.kept_operand hchain]

theorem Free.mono {count count' : Nat} {nodes nodes' : List Node} (h : Free c count nodes)
    (hcount : count' ≤ count) (hnodes : nodes' ⊆ nodes) : Free c count' nodes' :=
  fun n hlow _ node hnode => h n hlow (by omega) node (hnodes hnode)

theorem compares_of_free (hop : op.isComparison = true) (hoperands : operands ≠ [])
    (hfree : Free c operands.length (left :: operands)) : H.Compares op p left operands c := by
  induction operands generalizing left c with
  | nil => exact absurd rfl hoperands
  | cons operand rest ih =>
    by_cases hrest : rest = []
    · subst hrest
      exact ⟨[], (binary op left operand).place p, [], c, rfl, by simp,
        fun _ => H.eval_comparison hop left operand p⟩
    cases hrepeat : isRepeatable operand with
    | true =>
      exact H.compares_repeated hop hrepeat hrest (hfree.mono (le_refl _) (by simp))
        (ih hrest (hfree.mono (by simp) (by simp)))
    | false =>
      refine H.compares_kept hop hrepeat hrest hfree rfl (ih hrest fun n hlow hhigh => ?_)
      have hall := hfree n (le_of_succ_le hlow)
        (lt_of_lt_of_eq hhigh (add_right_comm ..))
      refine forall_mem_cons.mpr ⟨⟨fun heq => ?_, trivial⟩, fun node hnode => hall node (by simp [hnode])⟩
      obtain ⟨-, rfl⟩ := temporary_injective (by decide) (by decide) heq
      exact absurd hlow (Nat.lt_irrefl _)

end Host

/-- Two or more operands that lower and that do not have the names of the variables that keep them are
lowered as a comparison, which does what a chain of comparisons is to do: it evaluates the operands from left
to right, each of them at most once, compares each with the one before it, is false after the first
comparison that fails and true after the last. -/
theorem comparison_chain_meaning (H : Host ω V E) {op : BinaryOp} (hop : op.isComparison = true)
    {form : Form} {c e : Context} {operands : List Node} {suspension : Suspension}
    (hmany : 2 ≤ form.args.length)
    (hoperands : Lower.tracking (lowerValues lower form.args) c = .ok (operands, suspension) e)
    (hvacant : ∀ n, e.nextFresh ≤ n → n < e.nextFresh + operands.length →
      Vacant form.args c (temporary "cmp" n)) :
    ∃ node d, lowerOperator lower form (.comparison op) c = .ok node d ∧
      ∀ this, H.eval node this = H.chain op (operands.map (H.eval · this)) := by
  have hlength := tracking_length hoperands
  rcases operands with _ | ⟨first, rest⟩
  · simp only [length_nil] at hlength
    omega
  have hrest : rest ≠ [] := by
    rintro rfl
    simp only [length_singleton] at hlength
    omega
  have hfree : Host.Free e rest.length (first :: rest) := fun n hlow hhigh =>
    tracking_lacks hoperands (by decide) hlow (hvacant n hlow (lt_succ_of_lt hhigh))
  obtain ⟨names, test, tests, d, hrun, -, hmeans⟩ := H.compares_of_free (p := form.position) hop hrest hfree
  refine ⟨comparisonValue form.position suspension ⟨names.map (keptDeclaration form.position), test :: tests⟩,
    d, ?_, fun _ => ?_⟩
  · have hcount : ¬form.args.length < 2 := by omega
    change withAtLeast form 2 (lowerComparison lower form op) c = _
    unfold withAtLeast
    rw [if_neg hcount]
    refine bind_ok_iff.mpr ⟨_, e, hoperands, ?_⟩
    exact bind_ok_iff.mpr ⟨_, d, hrun, rfl⟩
  · rw [H.eval_comparisonValue, hmeans]
    rfl

/-- Code that is not looked into counts how often it has been run. -/
def Host.counting : Host Nat Nat Empty where
  undefined := 0
  bool b := b.toNat
  isTrue v := v != 0
  isTrue_bool b := by cases b <;> rfl
  constant _ := 0
  compare _ a b := .ok (decide (a < b))
  act _ _ := fun m o m' => o = .normal (m.world + 1) ∧ m' = { m with world := m.world + 1 }
  act_ignores _ _ := by
    rintro m _ _ ⟨rfl, rfl⟩
    exact ⟨rfl, fun _ => ⟨rfl, rfl⟩⟩

/-- `(< a (f) x)` calls the function once. -/
theorem comparison_chain_meaning_keeping :
    ∃ node d, lowerOperator lower keepingChain (.comparison .lt) (Context.start "" {}) = .ok node d ∧
      ∀ this, Host.counting.eval node this = Host.counting.chain .lt
        [.looking (·.vars "a"), Host.counting.act (Node.call (Node.ident "f") []) this,
          .looking (·.vars "x")] := by
  have hrun : Lower.tracking (lowerValues lower keepingChain.args) (Context.start "" {}) = .ok _ _ := rfl
  refine comparison_chain_meaning Host.counting rfl (by decide) hrun fun n _ hhigh => ?_
  have hthree : n = 0 ∨ n = 1 ∨ n = 2 := by
    have hhigh : n < 3 := hhigh
    omega
  rcases hthree with rfl | rfl | rfl <;>
    exact ⟨SExpr.avoidIn_of_spelled (by decide +kernel), start_spares (by decide)⟩

end LispLowering
