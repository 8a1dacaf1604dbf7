import LispLowering.Proofs.Composition.Traversal
import LispLowering.Proofs.Provenance.Steps

/-!
# Values, targets and calls under watch
-/

namespace LispLowering

open Lowering Node SExpr List DeclaredCall

variable {w : Watch} {H : Prop} {lower : Lowerer} {Q : SExpr → Prop} {text part : String}

/-- How the trees with a property are lowered: such a tree is at a known position, and its node is anchored. -/
structure LowersOn (w : Watch) (Q : SExpr → Prop) (lower : Lowerer) : Prop where
  known : ∀ {t : SExpr}, Q t → w.Known t.position
  silent : ∀ {text : String} {p : Option Position}, Q (.symbol text p) → w.Silent text
  spread : ∀ {t node : SExpr}, Q t → spreadTarget? t = some (.form node) → Q node
  lowers : ∀ (H : Prop) (t : SExpr), Q t →
    Sourced w H (lower t) fun result => ∀ node ∈ result, node.Anchored w

/-- How the trees that suit the watch are lowered. -/
abbrev LowersSourced (w : Watch) (lower : Lowerer) : Prop := LowersOn w (Suits w) lower

theorem LowersOn.traced (h : LowersOn w Q lower) {t : SExpr} (ht : Q t) :
    Traced w lower H eraseOption (lower t) (lower t.erase) fun result => ∀ node ∈ result, node.Anchored w :=
  ⟨h.lowers H t ht, fun he => he t⟩

namespace Node

variable {p : Option Position}

theorem AllowedIn.append {nodes nodes' : List Node} (h : AllowedIn w nodes) (h' : AllowedIn w nodes') :
    AllowedIn w (nodes ++ nodes') :=
  everyIn_append.mpr ⟨h, h'⟩

theorem allowedIn_of_anchored {nodes : List Node} (h : ∀ node ∈ nodes, node.Anchored w) :
    AllowedIn w nodes :=
  everyIn_iff.mpr fun node hnode => (h node hnode).allowed

theorem allowedOption_of_anchored {node : Option Node} (h : ∀ one ∈ node, one.Anchored w) :
    AllowedOption w node := by
  cases node with
  | none => trivial
  | some node => exact (h node rfl).allowed

theorem anchored_null (hp : w.Known p) : (null.place p).Anchored w := anchored rfl hp trivial

theorem anchored_undefined (hp : w.Known p) : (undefined.place p).Anchored w :=
  anchored_ident (Watch.not_own (.inl rfl) (by decide)) hp

end Node

namespace Lowering

variable {t : SExpr} {trees : List SExpr} {form : Form} {p : Option Position}

/-! ## Values and bodies -/

theorem asExpression_traced (result : Option Node) (suspension : Suspension) (hp : w.Known p) :
    Traced w lower (H ∧ ∀ node ∈ result, node.Anchored w) Node.erase
      (match result with
        | some node => pure (node.asExpression suspension)
        | none => pure (null.place p))
      (match eraseOption result with
        | some node => pure (node.asExpression suspension)
        | none => pure (null.place none))
      (Anchored w) := by
  cases result with
  | none => exact .pure rfl fun _ => anchored_null hp
  | some node =>
    exact .pure (node.erase_asExpression suspension) fun hnode => (hnode.2 node rfl).asExpression suspension

section

variable (h : LowersOn w Q lower)

include h

theorem lowerValue_traced (ht : Q t) :
    Traced w lower H Node.erase (lowerValue lower t) (lowerValue lower t.erase) (Anchored w) := by
  cases t with
  | literal | symbol =>
    exact .bind (h.traced ht) fun result => asExpression_traced result {} (h.known ht)
  | list items p =>
    exact .bind ⟨.inExpression (h.lowers H _ ht), fun he => (he _).inExpression⟩ fun result =>
      asExpression_traced result.1 result.2 (h.known ht)

theorem lowerValues_traced (ht : Each Q trees) :
    Traced w lower H eraseAll (lowerValues lower trees) (lowerValues lower (trees.map SExpr.erase))
      fun values => ∀ value ∈ values, value.Anchored w :=
  .eachTree fun t hmem _ => lowerValue_traced h (each_iff.mp ht t hmem)

theorem lowerOption_traced {tree : Option SExpr} (ht : ∀ t ∈ tree, Q t) :
    Traced w lower H eraseOption (Lower.option (lowerValue lower) tree)
      (Lower.option (lowerValue lower) (tree.map SExpr.erase)) fun value => ∀ one ∈ value, one.Anchored w := by
  cases tree with
  | none => exact .pure rfl fun _ => by simp
  | some t => exact .map (lowerValue_traced h (ht t rfl)) (fun _ => rfl) fun _ _ hvalue => by simpa using hvalue

theorem lowerStatement_traced (ht : Q t) :
    Traced w lower H eraseOption (lowerStatement lower t) (lowerStatement lower t.erase)
      fun first => AllowedIn w first.toList := by
  refine .map (h.traced ht) (fun result => ?_) fun _ result hresult => ?_
  · cases result with
    | none => rfl
    | some node => exact congrArg some node.erase_asStatement
  · cases result with
    | none => trivial
    | some node => exact AllowedIn.single (hresult node rfl).allowed.asStatement

theorem lowerBody_traced (ht : Each Q trees) :
    Traced w lower H eraseAll (lowerBody lower trees) (lowerBody lower (trees.map SExpr.erase))
      (AllowedIn w) := by
  induction trees generalizing H with
  | nil => exact .pure rfl fun _ => trivial
  | cons t rest ih =>
    refine .bind (lowerStatement_traced h ht.1) fun first => .bind (ih ht.2) fun _ =>
      .pure ?_ fun ⟨⟨_, hfirst⟩, hothers⟩ => hfirst.append hothers
    cases first <;> simp

theorem lowerReturningBody_traced (ht : Each Q trees) :
    Traced w lower H eraseAll (lowerReturningBody lower trees)
      (lowerReturningBody lower (trees.map SExpr.erase)) (AllowedIn w) :=
  .map (lowerBody_traced h ht) (fun body => by simp [returningAll_erase]) fun _ body =>
    AllowedIn.returningAll body

end

/-! ## References -/

theorem Referred.allowed {node node' : Node} {q : Option Position} (h : Referred p q node node')
    (hnames : ∀ name ∈ w.names, node.Lacks name) (hp : w.Known p) : node.Allowed w := by
  induction h with
  | literal | thisValue => exact Node.allowed rfl hp trivial
  | identifier =>
    exact allowed_typedIdent (fun hname => (hnames _ hname).1 rfl) (.inl hp)
  | member _ _ ih | optionalMember _ _ ih =>
    exact Node.allowed rfl hp ⟨ih fun name hname => (hnames name hname).2.1, trivial⟩
  | index _ _ ih =>
    exact Node.allowed rfl hp ⟨ih fun name hname => (hnames name hname).2.1, allowed_literal hp⟩
  | spread _ ih => exact Node.allowed rfl hp (ih fun name hname => (hnames name hname).2)

section

variable (h : w.Silent text) (hpart : part = text ∨ Text.stripStart? "..." text = some part)
  (hp : w.Known p)

include h hpart hp

theorem reference_sourced : Answered (Diagnostic.Raised w.sites) (Anchored w) (reference part p) := by
  have halike := reference_alike part p p
  cases hnode : reference part p with
  | error e =>
    rw [hnode] at halike
    cases halike with
    | error => exact .fault _ hp.1
  | ok node =>
    have hreferred := reference_referred hnode
    refine ⟨hreferred.allowed (fun name hname => ?_) hp, ?_, ?_⟩
    · by_contra hlacks
      exact h name hname (.reference hpart hnode hlacks)
    · rw [hreferred.position]
      exact hp
    · cases hreferred <;> exact fun _ => NodeKind.noConfusion

theorem reference_traced :
    Traced w lower H Node.erase (Lower.ofExcept (reference part p)) (Lower.ofExcept (reference part none))
      (Anchored w) :=
  .ofExcept (reference_sourced h hpart hp) (reference_erases part p)

end

/-! ## Names -/

theorem symbolIn_traced {α : Type} {f : α → α} {tree : Option SExpr}
    {k k' : String → Lower α} {R : α → Prop} (hp : w.Known form.position) (ht : ∀ t ∈ tree, t.Suits w)
    (hk : ∀ text, w.Silent text → Traced w lower H f (k text) (k' text) R) :
    Traced w lower H f (form.symbolIn part tree >>= k)
      (form.erase.symbolIn part (tree.map SExpr.erase) >>= k') R := by
  match tree, ht with
  | none, _ => exact .refuseForm hp
  | some (.symbol text p), ht => exact hk text (ht _ rfl).symbol
  | some (.literal _ _), ht | some (.list _ _), ht => exact .refusePart hp (ht _ rfl).position

/-! ## Targets -/

/-- A target at a position, or a slot at a position that is skipped. -/
def TargetAt (w : Watch) (p : Option Position) : Option Node → Prop
  | none => w.Known p
  | some node => node.Allowed w ∧ node.position = p ∧ ∀ value, node.kind ≠ .expressionStatement value

section

variable (h : LowersSourced w lower)

include h

set_option linter.unusedSectionVars false in
mutual

theorem pattern_traced {H : Prop} : (pattern : Pattern) → pattern.Suits w →
    Traced w lower H eraseOption (pattern.lower (lowerValue lower))
      (pattern.erase.lower (lowerValue lower)) (TargetAt w pattern.position)
  | ⟨kind, default, p⟩, hpattern => by
    refine .bind (patternKind_traced p kind hpattern.1) fun shape => ?_
    cases shape with
    | none => exact .pure rfl fun ⟨_, hskipped⟩ => hskipped
    | some node =>
      cases default with
      | none => exact .pure rfl fun ⟨_, hnode⟩ => hnode
      | some value =>
        obtain ⟨hvalue, hp⟩ := hpattern.2 value rfl
        exact .bind (lowerValue_traced h hvalue) fun _ => .pure rfl fun ⟨⟨_, hnode⟩, hvalue⟩ =>
          ⟨allowed rfl hp ⟨hnode.1, hvalue.allowed⟩, rfl, nofun⟩

theorem patternKind_traced {H : Prop} (p : Option Position) : (kind : PatternKind) → kind.Suits w p →
    Traced w lower H eraseOption (Pattern.lowerKind (lowerValue lower) p kind)
      (Pattern.lowerKind (lowerValue lower) none kind.erase) (TargetAt w p)
  | .skip, hkind => .pure rfl fun _ => hkind
  | .identifier _ _, hkind => .pure rfl fun _ => ⟨allowed_typedIdent hkind.1 hkind.2, rfl, nofun⟩
  | .array elements, hkind =>
    .bind (patternElements_traced elements hkind.2) fun _ => .pure rfl fun ⟨_, hslots⟩ =>
      ⟨allowed rfl hkind.1 hslots, rfl, nofun⟩
  | .object properties rest, hkind =>
    .bind (patternProperties_traced hkind.1 properties hkind.2.1) fun _ =>
      .bind (patternRest_traced rest hkind.2.2) fun _ =>
        .pure (by simp [NodeKind.erase]) fun ⟨⟨_, hentries⟩, hremaining⟩ =>
          ⟨allowed rfl hkind.1 (hentries.append hremaining), rfl, nofun⟩
  | .rest inner, hkind => by
    refine .bind (pattern_traced inner hkind.2.1) fun target => ?_
    cases target with
    | none => exact .fault hkind.2.2.1
    | some node =>
      exact .pure rfl fun ⟨_, hnode⟩ => ⟨allowed rfl hkind.1 hnode.1, rfl, nofun⟩

theorem patternElements_traced {H : Prop} : (elements : List Pattern) → Pattern.SuitIn w elements →
    Traced w lower H eraseSlots (Pattern.lowerElements (lowerValue lower) elements)
      (Pattern.lowerElements (lowerValue lower) (Pattern.eraseAll elements))
      (foldSlots w.shut True And w.Allows)
  | [], _ => .pure rfl fun _ => trivial
  | element :: rest, helems => by
    refine .bind (pattern_traced element helems.1) fun slot =>
      .bind (patternElements_traced rest helems.2) fun _ =>
        .pure rfl fun ⟨⟨_, hslot⟩, hslots⟩ => ⟨?_, hslots⟩
    cases slot with
    | none => trivial
    | some node => exact hslot.1

theorem patternProperties_traced {H : Prop} {p : Option Position}
    (hp : w.Known p) :
    (properties : List PropertyPattern) → Pattern.SuitInEntries w properties →
    Traced w lower H eraseAll (Pattern.lowerProperties (lowerValue lower) p properties)
      (Pattern.lowerProperties (lowerValue lower) none (Pattern.eraseProperties properties))
      (AllowedIn w)
  | [], _ => .pure rfl fun _ => trivial
  | ⟨key, value⟩ :: rest, hprops => by
    refine .bind (pattern_traced value hprops.1.1) fun target => ?_
    cases target with
    | none => exact .fault (hprops.1.2.or_left hp.1).1
    | some node =>
      refine .bind (patternProperties_traced hp rest hprops.2) fun _ =>
        .pure (by simp [erase_keyed]) fun ⟨⟨_, hnode⟩, hentries⟩ =>
          ⟨(hnode.1.keyed ?_ key).allowed, hentries⟩
      rw [hnode.2.1]
      exact hprops.1.2

theorem patternRest_traced {H : Prop} : (rest : Option Pattern) → Pattern.SuitInRest w rest →
    Traced w lower H eraseAll (Pattern.lowerObjectRest (lowerValue lower) rest)
      (Pattern.lowerObjectRest (lowerValue lower) (Pattern.eraseRest rest)) (AllowedIn w)
  | none, _ => .pure rfl fun _ => trivial
  | some inner, hrest => by
    refine .bind (pattern_traced inner hrest.1) fun target => ?_
    cases target with
    | none => exact .fault hrest.2.1
    | some node =>
      exact .pure (by simp [NodeKind.erase]) fun ⟨_, hnode⟩ => .single (allowed rfl hrest.2 hnode.1)

end

theorem lowerTarget_traced (ht : t.Suits w) :
    Traced w lower H Node.erase (lowerTarget lower t) (lowerTarget lower t.erase) (Anchored w) := by
  refine .bindSyntax (Pattern.read_suits ht) (Pattern.read_erases t) fun pattern _ hpattern =>
    .bind (pattern_traced h pattern hpattern.1) fun target => ?_
  cases target with
  | none => exact .fault ht.position.1
  | some node =>
    refine .pure rfl fun ⟨_, hallowed, hpos, hplain⟩ => ⟨hallowed, ?_, hplain⟩
    rw [hpos]
    exact hpattern.2

end

/-! ## Arguments -/

theorem spreadTarget?_symbol {name : String} (h : spreadTarget? t = some (.symbol name)) :
    ∃ text p, t = .symbol text p ∧ Text.stripStart? "..." text = some name := by
  cases t with
  | symbol text p =>
    obtain ⟨target, htarget, heq⟩ := Option.map_eq_some_iff.mp h
    cases heq
    exact ⟨text, p, rfl, (Option.filter_eq_some_iff.mp htarget).1⟩
  | literal value p => cases h
  | list items p =>
    unfold spreadTarget? at h
    split at h
    · next heq => cases heq
    · split at h
      · cases h
      · cases h
    · cases h

theorem lowerArgument_traced (h : LowersOn w Q lower) (ht : Q t) :
    Traced w lower H Node.erase (lowerArgument lower t) (lowerArgument lower t.erase) (Anchored w) := by
  have hp := h.known ht
  have hspread {node : Node} {K : Prop} (hnode : K ∧ node.Anchored w) :
      ((spread node).place t.position).Anchored w :=
    anchored rfl hp hnode.2.allowed
  unfold lowerArgument
  rw [spreadTarget?_erase, SExpr.position_erase]
  cases htarget : spreadTarget? t with
  | none => exact lowerValue_traced h ht
  | some target =>
    cases target with
    | symbol name =>
      obtain ⟨text, p, rfl, hpart⟩ := spreadTarget?_symbol htarget
      exact .bind (reference_traced (h.silent ht) (.inr hpart) hp) fun _ => .pure rfl hspread
    | form node => exact .bind (lowerValue_traced h (h.spread ht htarget)) fun _ => .pure rfl hspread

theorem lowerArguments_traced (h : LowersOn w Q lower) (ht : Each Q trees) :
    Traced w lower H eraseAll (lowerArguments lower trees)
      (lowerArguments lower (trees.map SExpr.erase)) (AllowedIn w) :=
  .imp (.eachTree fun t hmem _ => lowerArgument_traced h (each_iff.mp ht t hmem))
    fun _ => allowedIn_of_anchored

/-! ## Calls -/

def EntryAllowed (w : Watch) (entry : FunctionEntry) : Prop :=
  ∀ index value, entry.defaultFor index = some value → value.Allowed w

namespace DeclaredCall

variable {call : DeclaredCall} {args : List SExpr}

theorem refuseArgument_traced {α : Type} {f : α → α} {R : α → Prop} {fault fault' : Fault}
    (hp : w.Known call.node.position) (ht : w.Known t.position) :
    Traced w lower H f (call.refuseArgument t fault) (call.erase.refuseArgument t.erase fault') R :=
  .fault (hp.or ht.1).1

section

variable (h : LowersOn w Q lower) (hp : w.Known call.node.position)

include h hp

theorem checkPlaceholders_traced (index : Nat) (hargs : Each Q args) :
    Traced w lower H id (call.checkPlaceholders index args)
      (call.erase.checkPlaceholders index (args.map SExpr.erase)) fun _ => True := by
  induction args generalizing H index with
  | nil => exact .pure rfl fun _ => trivial
  | cons arg rest ih =>
    have hrest {H : Prop} : Traced w lower H id (call.checkPlaceholders (index + 1) rest)
        (call.erase.checkPlaceholders (index + 1) (rest.map SExpr.erase)) fun _ => True :=
      ih (index + 1) hargs.2
    simp only [map_cons, checkPlaceholders, isPlaceholder_erase, erase,
      FunctionEntry.positional_erase, getElem?_map, FunctionEntry.defaultFor_erase,
      FunctionEntry.hasRest_erase, Option.isNone_map] at hrest ⊢
    refine .ite Iff.rfl ?_ hrest
    cases call.entry.positional[index]? with
    | none | some =>
      exact .ite Iff.rfl (.bind (R := fun _ => True) (f := id)
        (refuseArgument_traced hp (h.known hargs.1)) fun _ => hrest) hrest

theorem checkCount_traced (hargs : Each Q args) :
    Traced w lower H id (call.checkCount args) (call.erase.checkCount (args.map SExpr.erase))
      fun _ => True := by
  have hdrop := hargs.subset (drop_subset call.entry.positional.length args)
  simp only [checkCount, erase, FunctionEntry.positional_erase, length_map,
    ← map_drop, FunctionEntry.hasRest_erase]
  cases hextra : args.drop call.entry.positional.length with
  | nil => exact .pure rfl fun _ => trivial
  | cons extra rest =>
    rw [hextra] at hdrop
    exact .ite Iff.rfl (refuseArgument_traced hp (h.known hdrop.1)) (.pure rfl fun _ => trivial)

theorem argumentFor_traced (param : Pattern) (index : Nat) {arg : Option SExpr} (harg : ∀ t ∈ arg, Q t)
    (hentry : H → EntryAllowed w call.entry) :
    Traced w lower H Node.erase (call.argumentFor lower param index arg)
      (call.erase.argumentFor lower param.erase index (arg.map SExpr.erase)) (Allowed w) := by
  have hdefault : call.erase.entry.defaultFor index = (call.entry.defaultFor index).map Node.erase :=
    call.entry.defaultFor_erase index
  cases arg with
  | none =>
    simp only [argumentFor, Option.map_none, hdefault]
    cases hvalue : call.entry.defaultFor index with
    | none => exact .fault hp.1
    | some value => exact .pure rfl fun hH => hentry hH index value hvalue
  | some arg =>
    simp only [argumentFor, Option.map_some, hdefault, isPlaceholder_erase]
    refine .ite Iff.rfl ?_ ((lowerValue_traced h (harg arg rfl)).imp fun _ hvalue => hvalue.allowed)
    cases hvalue : call.entry.defaultFor index with
    | none => exact refuseArgument_traced hp (h.known (harg arg rfl))
    | some value => exact .pure rfl fun hH => hentry hH index value hvalue

theorem positionalArguments_traced {H : Prop} (hentry : H → EntryAllowed w call.entry) :
    (index : Nat) → (params : List Pattern) → (args : List SExpr) → Each Q args →
    Traced w lower H eraseAll (call.positionalArguments lower index params args)
      (call.erase.positionalArguments lower index (params.map Pattern.erase) (args.map SExpr.erase))
      (AllowedIn w)
  | _, [], _, hargs => (lowerValues_traced h hargs).imp fun _ => allowedIn_of_anchored
  | index, param :: params, args, hargs => by
    have hfirst : ∀ t ∈ args.head?, Q t := fun t ht => each_iff.mp hargs t (mem_of_mem_head? ht)
    simp only [map_cons, positionalArguments, head?_map, ← map_tail]
    exact .bind (argumentFor_traced h hp param index hfirst hentry) fun _ =>
      .bind (positionalArguments_traced (fun hH => hentry hH.1) (index + 1) params args.tail
        (hargs.subset (tail_subset args))) fun _ =>
          .pure rfl fun ⟨⟨_, hfirst⟩, hothers⟩ => ⟨hfirst, hothers⟩

end

variable (h : LowersOn w Q lower) (call : DeclaredCall) (hp : w.Known call.node.position)

include h hp

theorem mapArgument_traced (ht : Each Q trees) : Traced w lower H Node.erase (call.mapArgument lower trees)
      (call.erase.mapArgument lower (trees.map SExpr.erase)) (Anchored w) := by
  match trees, ht with
  | [], _ =>
    exact .pure (by simp [erase, object, of, Node.place, NodeKind.erase])
      fun _ => anchored rfl hp trivial
  | [arg], ht =>
    exact .ite (by simp only [isForm_erase]) (lowerValue_traced h ht.1)
      (refuseArgument_traced hp (h.known ht.1))
  | _ :: _ :: _, ht => exact refuseArgument_traced hp (h.known ht.2.1)

theorem arguments_traced (ht : Each Q trees) (hentry : H → EntryAllowed w call.entry) :
    Traced w lower H eraseAll (call.arguments lower trees)
      (call.erase.arguments lower (trees.map SExpr.erase)) (AllowedIn w) := by
  have hspread : (trees.map SExpr.erase).any isSpread = trees.any isSpread := by
    simp [any_map, Function.comp_def]
  unfold arguments
  rw [hspread]
  refine .ite Iff.rfl (lowerArguments_traced h ht) (.ite Iff.rfl ?_ ?_)
  · exact .map (mapArgument_traced h call hp ht) (fun _ => rfl) fun _ _ hargument =>
      .single hargument.allowed
  · refine .bind (checkPlaceholders_traced h hp 0 ht) fun _ => .bind (checkCount_traced h hp ht) fun _ => ?_
    have hpositional : call.erase.entry.positional = call.entry.positional.map Pattern.erase :=
      call.entry.positional_erase
    rw [hpositional]
    exact positionalArguments_traced h hp (fun hH => hentry hH.1.1) 0 _ trees ht

end DeclaredCall

variable {node : SExpr}

theorem lowerCallOf_traced (h : LowersOn w Q lower) {callee : Node} (hp : w.Known node.position)
    (ht : Each Q trees) (hcallee : H → callee.Allowed w) :
    Traced w lower H Node.erase (lowerCallOf lower node callee trees)
      (lowerCallOf lower node.erase callee.erase (trees.map SExpr.erase)) (Anchored w) := by
  have hgeneral : Traced w lower H Node.erase
      (do return (Node.call callee (← lowerArguments lower trees)).place node.position)
      (do return (Node.call callee.erase
        (← lowerArguments lower (trees.map SExpr.erase))).place node.erase.position)
      (Anchored w) := by
    rw [SExpr.position_erase]
    exact .map (lowerArguments_traced h ht) (fun _ => rfl) fun hH _ hgiven =>
      anchored rfl hp ⟨hcallee hH, hgiven⟩
  match trees, ht with
  | [.literal (.number n) q], ht =>
    have hq : w.Known q := h.known ht.1
    refine .get fun c => .pure (by rw [SExpr.position_erase]; rfl) fun ⟨hH, hc⟩ => anchored rfl hp ?_
    exact ⟨allowed_ident hc.helper hp, hcallee hH, allowed_literal hq, trivial⟩
  | [], _ | [.symbol _ _], _ | [.list _ _], _ | [.literal (.string _) _], _
  | [.literal (.bool _) _], _ | [.literal .null _], _ | .symbol _ _ :: _ :: _, _
  | .list _ _ :: _ :: _, _ | .literal (.number _) _ :: _ :: _, _
  | .literal (.string _) _ :: _ :: _, _ | .literal (.bool _) _ :: _ :: _, _
  | .literal .null _ :: _ :: _, _ => exact hgeneral

theorem lowerMethodCall_traced (h : LowersOn w Q lower) (method : String)
    (hp : w.Known node.position) (ht : Each Q trees) :
    Traced w lower H Node.erase (lowerMethodCall lower node method trees)
      (lowerMethodCall lower node.erase method (trees.map SExpr.erase)) (Anchored w) := by
  cases trees with
  | nil => exact .fault hp.1
  | cons receiver rest =>
    simp only [map_cons, lowerMethodCall, SExpr.position_erase]
    exact .bind (lowerValue_traced h ht.1) fun _ => .bind (lowerArguments_traced h ht.2) fun _ =>
      .pure rfl fun hall => anchored rfl hp ⟨allowed rfl hp ⟨hall.1.2.allowed, trivial⟩, hall.2⟩

theorem declaredFunction?_traced (name : String) :
    Traced w lower H (Option.map FunctionEntry.erase) (declaredFunction? name) (declaredFunction? name)
      fun entry => ∀ found ∈ entry, EntryAllowed w found := by
  refine .ite Iff.rfl (.pure rfl fun _ => nofun) (.bind (f := id) (R := fun _ => True)
    (.get fun _ => .pure rfl fun _ => trivial) fun _ => ?_)
  refine .ite Iff.rfl (.pure rfl fun _ => nofun) (.get fun c => .pure (c.registry.get?_erase _).symm ?_)
  rintro ⟨-, hc⟩ found hfound index value hvalue
  exact hc.registry.found value ⟨_, found, index, hfound, hvalue⟩

theorem lowerNamedCall_traced (h : LowersOn w Q lower) {head : Option Position}
    (htext : w.Silent text) (hhead : w.Known head) (hp : w.Known node.position) (ht : Each Q trees) :
    Traced w lower H Node.erase (lowerNamedCall lower node text head trees)
      (lowerNamedCall lower node.erase text none (trees.map SExpr.erase)) (Anchored w) := by
  have hname : Symbol.identifier text ∉ w.names := fun hmem => htext _ hmem .identifier
  unfold lowerNamedCall
  cases methodName? text with
  | some method => exact lowerMethodCall_traced h method hp ht
  | none =>
    refine .bind (declaredFunction?_traced text) fun entry => ?_
    cases entry with
    | some entry =>
      refine .bind (arguments_traced h ⟨Symbol.identifier text, entry, node⟩ hp ht
        fun hH => hH.2 entry rfl) fun _ => .pure (by rw [SExpr.position_erase]; rfl)
          fun ⟨_, hgiven⟩ => anchored rfl hp ⟨allowed_ident hname hhead, hgiven⟩
    | none =>
      exact .bind (reference_traced htext (.inl rfl) hhead) fun _ =>
        lowerCallOf_traced h hp ht fun hH => hH.2.allowed

theorem lowerApplied_traced (h : LowersOn w Q lower) {head : SExpr} (hhead : Q head)
    (hp : w.Known node.position) (ht : Each Q trees) :
    Traced w lower H Node.erase (lowerApplied lower node head trees)
      (lowerApplied lower node.erase head.erase (trees.map SExpr.erase)) (Anchored w) :=
  .bind (lowerValue_traced h hhead) fun _ => lowerCallOf_traced h hp ht fun hH => hH.2.allowed

end Lowering

end LispLowering
