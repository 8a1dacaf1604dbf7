import LispLowering.Proofs.Chains
import LispLowering.Proofs.Defaults

/-!
# Implicit parameters
-/

namespace LispLowering

open Lowering List Node SExpr String

variable {k n : Nat} {text : String} {p : Option Position} {items : List SExpr}
  {cs : List Char} {lower : Lowerer} {q : Option Position}

/-! ## Symbols -/

/-- The name of an implicit parameter. -/
abbrev implicitName (k : Nat) : String := "$" ++ Text.decimal k

theorem toList_implicitName (k : Nat) : (implicitName k).toList = '$' :: Nat.toDigits 10 k := by
  simp [Text.decimal]

theorem isDigit_of_mem_toDigits : ∀ c ∈ Nat.toDigits 10 k, c.isDigit = true :=
  fun _ hc => Nat.isDigit_of_mem_toDigits (by decide) (by decide) hc

theorem implicitIndex?_eq (hk : k < 2 ^ 64) {rest : List Char}
    (htext : text.toList = (implicitName k).toList ++ rest)
    (hrest : ∀ c ∈ rest.head?, c = '.' ∨ c = '?') : implicitIndex? text = some k := by
  have hdigits := isDigit_of_mem_toDigits (k := k)
  have hscanned : text.toList.takeWhile (fun c => c != '.' && c != '?') = '$' :: Nat.toDigits 10 k := by
    have hname : ∀ c ∈ '$' :: Nat.toDigits 10 k, (c != '.' && c != '?') = true := by
      refine forall_mem_cons.mpr ⟨by decide, fun c hc => ?_⟩
      have hdigit := hdigits c hc
      by_contra hne
      simp only [Bool.and_eq_true, bne_iff_ne, not_and_or, not_not] at hne
      rcases hne with rfl | rfl <;> cases hdigit
    have hstop : rest.takeWhile (fun c => c != '.' && c != '?') = [] := by
      cases rest with
      | nil => rfl
      | cons c rest => rcases hrest c rfl with rfl | rfl <;> rfl
    rw [htext, toList_implicitName, takeWhile_append_of_pos hname, hstop, append_nil]
  have hword : wordNumber? (Nat.toDigits 10 k) = some k := by
    have hvalue : Binary64.digitsValue (Nat.toDigits 10 k) = k := Nat.ofDigitChars_ten_toDigits
    have hsign : ∀ rest, Nat.toDigits 10 k ≠ '+' :: rest := fun rest h =>
      absurd (hdigits '+' (h ▸ (.head _))) (by decide)
    have hall : (Nat.toDigits 10 k).all Char.isDigit = true := all_eq_true.mpr hdigits
    have hne : (Nat.toDigits 10 k).isEmpty = false := by simp
    unfold wordNumber?
    split
    · next rest h => exact absurd h (hsign rest)
    · simpa [hne, hall, hvalue] using hk
  simp only [implicitIndex?, hscanned, hword]

theorem implicitIndex?_implicitName (hk : k < 2 ^ 64) : implicitIndex? (implicitName k) = some k :=
  implicitIndex?_eq hk (append_nil _).symm nofun

namespace Symbol

theorem eq_of_flatMap_spell (h : '_' ∉ cs.flatMap spell) : cs.flatMap spell = cs := by
  refine flatMap_spell_eq_self_iff.mpr fun c hc => ?_
  by_contra hname
  obtain ⟨rest, heq⟩ := spell_of_not_isNameChar (Bool.eq_false_of_not_eq_true hname)
  exact h (mem_flatMap.mpr ⟨c, hc, heq ▸ (.head _)⟩)

theorem eq_of_identifier (h : identifier text = implicitName k) : text = implicitName k := by
  have hmark : '_' ∉ (implicitName k).toList := by
    rw [toList_implicitName, mem_cons, not_or]
    exact ⟨by decide, fun hmem => absurd (isDigit_of_mem_toDigits _ hmem) (by decide)⟩
  unfold identifier at h
  dsimp only at h
  split at h
  · rw [← h] at hmark
    simp at hmark
  · rw [← h, property, toList_ofList] at hmark
    rw [← h, property, eq_of_flatMap_spell hmark, ofList_toList]

/-- The symbol is a name or a chain of names, without a mark in front of it and without a type behind it. -/
structure Unmarked (text : String) : Prop where
  spread : Text.stripStart? "..." text = none
  rest : Text.stripStart? "&" text = none
  foreign : Text.stripStart? "js/" text = none
  colon : ':' ∉ text.toList
  bracket : '<' ∉ text.toList

/-- The scan counts the symbol if it gives the name of an implicit parameter. Larger numbers are not counted. -/
def Agrees (text : String) : Prop := ∀ k < 2 ^ 64, Gives text (implicitName k) → implicitIndex? text = some k

theorem divide?_eq_none {c : Char} (h : c ∉ text.toList) : Text.divide? c text = none := by
  have hchars (cs : List Char) (hcs : c ∉ cs) : Text.divideChars c cs = none := by
    induction cs with
    | nil => rfl
    | cons d rest ih =>
      obtain ⟨hd, hrest⟩ := not_or.mp (mt mem_cons.mpr hcs)
      rw [Text.divideChars, if_neg (Ne.symm hd), ih hrest]
      rfl
  rw [Text.divide?, hchars _ h]
  rfl

theorem Unmarked.stripEnd?_eq (h : Unmarked text) : Text.stripEnd? ":" text = none := by
  rw [Text.stripEnd?, Option.map_eq_none_iff]
  by_contra hsome
  obtain ⟨before, hbefore⟩ := Option.ne_none_iff_exists'.mp hsome
  have htext := isSuffixOf?_eq_some_iff_append_eq.mp hbefore
  exact h.colon (htext ▸ mem_append_right _ (.head _))

theorem lacks_foldl {name : String} (segments : List Segment) {node : Node}
    (h : node.Lacks name) : (segments.foldl (accessSegment p) node).Lacks name := by
  induction segments generalizing node with
  | nil => exact h
  | cons segment rest ih =>
    refine ih ?_
    unfold accessSegment
    split
    · exact ⟨trivial, h, trivial, trivial⟩
    · split
      · exact ⟨trivial, h, trivial⟩
      · exact ⟨trivial, h, trivial⟩

theorem Joins.start {root : String} {segments : List Segment} (h : Joins cs root segments) :
    ∃ rest, cs = root.toList ++ rest ∧ ∀ c ∈ rest.head?, c = '.' ∨ c = '?' := by
  cases h with
  | last => exact ⟨[], by simp, by simp⟩
  | plain => exact ⟨'.' :: _, by rw [toList_ofList], by simp⟩
  | optional => exact ⟨'?' :: '.' :: _, by rw [toList_ofList], by simp⟩

theorem implicitIndex?_of_reference (h : Unmarked text) (hk : k < 2 ^ 64) {node : Node} (hnode : reference text p = .ok node)
    (hname : ¬node.Lacks (implicitName k)) : implicitIndex? text = some k := by
  have hidentifier {name : String} (hname : ¬((ident (identifier name)).place p).Lacks (implicitName k)) :
      name = implicitName k := by
    by_contra hne
    exact hname ⟨fun heq => hne (eq_of_identifier heq), trivial⟩
  have hplain : reference text p = plainReference text p := by
    rw [reference, referenceChars]
    · rw [ofList_toList]
    · intro c rest htext
      have hspread := h.spread
      simp [Text.stripStart?, htext, List.isPrefixOf?] at hspread
  rw [hplain, plainReference, h.foreign, keyword?, h.stripEnd?_eq] at hnode
  -- a constant, a chain or a plain name
  split at hnode
  · next kind hconstant =>
    cases hnode
    have hconstants : ∀ entry ∈ constants, (mk entry.2 p).Lacks (implicitName k) := by
      have hundefined : "undefined" ≠ implicitName k := by
        intro heq
        have := congrArg (·.toList.head?) heq
        simp at this
      simp [constants, fold, NodeKind.fold, NodeKind.Spares, hundefined]
    obtain ⟨_, _, heq, -⟩ := lookup_eq_some_iff.mp hconstant
    exact absurd (hconstants (text, kind) (by simp [heq])) hname
  · simp only [Option.filter_none] at hnode
    split at hnode
    · unfold memberChain at hnode
      split at hnode
      · next root segments hsegments =>
        cases hnode
        have hroot := mt (lacks_foldl segments) hname
        unfold chainRoot at hroot
        split at hroot
        · exact absurd ⟨trivial, trivial⟩ hroot
        · obtain ⟨rest, htext, hrest⟩ := (chains_of_chain? hsegments).joins.start
          exact implicitIndex?_eq hk (hidentifier hroot ▸ htext) hrest
      · cases hnode
    · cases hnode
      rw [hidentifier hname, implicitIndex?_implicitName hk]

theorem agrees_of_unmarked (h : Unmarked text) : Agrees text := by
  intro k hk hgives
  have hwhole (hname : identifier text = implicitName k) : implicitIndex? text = some k := by
    rw [eq_of_identifier hname, implicitIndex?_implicitName hk]
  generalize hname : implicitName k = name at hgives
  cases hgives with
  | label => rw [← hname, implicitIndex?_implicitName hk]
  | identifier => exact hwhole hname.symm
  | generic =>
    rw [GenericName.ofSymbol, divide?_eq_none h.bracket] at hname
    exact hwhole hname.symm
  | enumeration =>
    rw [splitRawType, divide?_eq_none h.colon] at hname
    exact hwhole hname.symm
  | reference hpart hnode hlacks =>
    rcases hpart with rfl | hpart
    · exact implicitIndex?_of_reference h hk hnode (hname ▸ hlacks)
    · cases h.spread.symm.trans hpart
  | binding hpart hsplit =>
    rcases hpart with rfl | hpart | hpart
    · rw [Pattern.splitAscription, divide?_eq_none h.colon] at hsplit
      cases hsplit
      exact hwhole hname.symm
    · simp [Pattern.restName?, h.spread, h.rest] at hpart
    · cases h.stripEnd?_eq.symm.trans hpart

end Symbol

/-! ## Trees -/

/-- The implicit parameter is watched, outside of arrow functions with parameters. -/
def Watch.implicit (k : Nat) : Watch where
  names := [implicitName k]
  sites := fun _ => True
  free := True
  gaps := fun _ => True
  trees := fun _ => True
  strict := False
  shut := true
  foreign := by
    intro name hname _
    rw [mem_singleton.mp hname, toList_implicitName]
    exact ⟨rfl, rfl⟩

theorem known_implicit : (Watch.implicit k).Known p := ⟨fun _ _ => trivial, .inl trivial⟩

theorem implicitCount_le {item : SExpr} (h : item ∈ items) : implicitCount item ≤ implicitCounts items := by
  induction h with
  | head rest => exact le_max_left _ _
  | tail first _ ih => exact ih.trans (le_max_right _ _)

theorem isArrowList_eq_false {name : String} {args : List SExpr} (h : name ≠ "=>") :
    isArrowList (.symbol name q :: args) = false :=
  decide_eq_false fun hname => h (Option.some.inj hname)

theorem implicitCount_item_le (h : implicitCount (.list items p) ≤ n) (harrow : isArrowList items = false) :
    ∀ item ∈ items, implicitCount item ≤ n := by
  rw [implicitCount, harrow] at h
  exact fun _ hitem => (implicitCount_le hitem).trans h

/-- The scan counts every implicit parameter in the tree, except for those below `n` that stand in arrow functions.
Keys that are strings are not counted. -/
structure SExpr.Modest (n : Nat) (t : SExpr) : Prop where
  agrees : ∀ text, t.Spells text → Symbol.Agrees text
  keys : ∀ items p, .list items p ∈ t.subtrees → ∀ key ∈ keysSpelled items, implicitIndex? key = none
  arrows : ∀ items p, .list items p ∈ t.subtrees → isArrowList items = true →
    ∀ text, (SExpr.list items p).Spells text → ∀ j ∈ implicitIndex? text, j < n

namespace SExpr.Modest

variable {n : Nat} {t : SExpr}

theorem item {item : SExpr} (h : (SExpr.list items p).Modest n) (hitem : item ∈ items) : item.Modest n where
  agrees := fun text htext => h.agrees text (.item hitem htext)
  keys := fun inner q hinner => h.keys inner q (mem_subtrees_item hitem hinner p)
  arrows := fun inner q hinner => h.arrows inner q (mem_subtrees_item hitem hinner p)

theorem symbol (h : Symbol.Agrees text) : (SExpr.symbol text p).Modest n where
  agrees := by
    rintro _ ⟨⟩
    exact h
  keys := by simp [subtrees]
  arrows := by simp [subtrees]

theorem index_lt (h : t.Modest n) (hcount : implicitCount t ≤ n) (htext : t.Spells text)
    {j : Nat} (hj : implicitIndex? text = some j) : j < n := by
  induction htext with
  | symbol p => simpa [implicitCount, hj] using hcount
  | @key head parts p q hhead hkey =>
    have hnone := h.keys _ p (mem_subtrees_self _) text (by simpa [keysSpelled, hhead] using hkey)
    cases hnone.symm.trans hj
  | @item items item p hitem hspells ih =>
    cases harrow : isArrowList items with
    | true => exact h.arrows items p (mem_subtrees_self _) harrow text (.item hitem hspells) j hj
    | false => exact ih (h.item hitem) (implicitCount_item_le hcount harrow item hitem)

theorem suits (h : t.Modest n) (hcount : implicitCount t ≤ n) (hn : n ≤ k) (hk : k < 2 ^ 64) :
    t.Suits (.implicit k) where
  trees := fun _ _ => trivial
  known := fun _ _ => known_implicit
  avoids := by
    intro name hname text htext hgives
    rw [mem_singleton.mp hname] at hgives
    have hlt := h.index_lt hcount htext (h.agrees text htext k hk hgives)
    omega
  gaps := fun _ _ => trivial

end SExpr.Modest

/-- The parts of an arrow function that has parameters, written or not. -/
def OpensParams : List SExpr → Prop
  | [] => False
  | first :: rest =>
    if hasParamVector (first :: rest) then ∀ list, ParamList.read first = .ok list → list.params ≠ []
    else implicitArity (first :: rest) ≠ 0

/-- The scan counts every implicit parameter in the tree, except for those below `n` and for those of
arrow functions with parameters that stand as values: in a call, in a form that takes values, or as a
value or a statement in `let`, `cond` or `try`. No function is declared in such an arrow function. -/
inductive Counted (n : Nat) : SExpr → Prop where
  | modest {t : SExpr} : t.Modest n → Counted n t
  | form {name : String} {special : SpecialForm} {args : List SExpr} (p q : Option Position) :
      HeadMeaning.ofName name = .special special → special.takesValues = true →
      (∀ arg ∈ args, Counted n arg) → Counted n (.list (.symbol name q :: args) p)
  | call {name : String} {args : List SExpr} (p q : Option Position) :
      HeadMeaning.ofName name = .called → Symbol.Agrees name → (∀ arg ∈ args, Counted n arg) →
      Counted n (.list (.symbol name q :: args) p)
  | applied {items args : List SExpr} (p q : Option Position) : Counted n (.list items q) →
      (∀ arg ∈ args, Counted n arg) → Counted n (.list (.list items q :: args) p)
  | binding {name : String} {kind : VariableKind} {target : SExpr} {rest : List SExpr}
      (p q : Option Position) : HeadMeaning.ofName name = .special (.binding kind) →
      (target.items? = none ∨ isDestructuring target = true → target.Modest n) →
      (∀ items r, target = .list items r → isArrowList items = false) →
      (∀ pair ∈ pairsOf target.bindingItems, pair.1.Modest n) →
      (∀ pair ∈ pairsOf target.bindingItems, Counted n pair.2) → (∀ form ∈ rest, Counted n form) →
      Counted n (.list (.symbol name q :: target :: rest) p)
  | cond {name : String} {clauses : List SExpr} (p q : Option Position) :
      HeadMeaning.ofName name = .special .cond →
      (∀ items r, .list items r ∈ clauses → isArrowList items = false) →
      (∀ items r, .list items r ∈ clauses → ∀ item ∈ items, Counted n item) →
      Counted n (.list (.symbol name q :: clauses) p)
  | trying {name : String} {args : List SExpr} (p q : Option Position) :
      HeadMeaning.ofName name = .special .trying →
      (∀ arg ∈ args, isTryClause arg = false → Counted n arg) →
      (∀ items r, .list items r ∈ args → isTryClause (.list items r) = true →
        ∀ item ∈ items, Counted n item) → Counted n (.list (.symbol name q :: args) p)
  | arrow {args : List SExpr} (p q : Option Position) : OpensParams args →
      (SExpr.list (.symbol "=>" q :: args) p).signatures = [] →
      Counted n (.list (.symbol "=>" q :: args) p)

theorem mem_of_bindingItems {item : SExpr} (h : item ∈ (SExpr.list items p).bindingItems) :
    item ∈ items := by
  cases items with
  | nil => cases h
  | cons head rest =>
    dsimp only [SExpr.bindingItems] at h
    split at h
    · exact .tail _ h
    · exact h

theorem isArrowList_of_isTryClause (h : isTryClause (.list items p) = true) :
    isArrowList items = false := by
  cases items with
  | nil => rfl
  | cons head rest =>
    simp only [isTryClause, SExpr.isForm, Bool.or_eq_true, decide_eq_true_eq] at h
    cases head with
    | symbol name q => rcases h with h | h <;> (cases h; rfl)
    | literal | list => rfl

/-- The tree is counted, up to `n`. -/
def Scanned (n : Nat) (t : SExpr) : Prop := Counted n t ∧ implicitCount t ≤ n

theorem Scanned.args {head : SExpr} {args : List SExpr} (hargs : ∀ arg ∈ args, Counted n arg)
    (hcounts : ∀ item ∈ head :: args, implicitCount item ≤ n) : Each (Scanned n) args :=
  each_iff.mpr fun arg harg => ⟨hargs arg harg, hcounts arg (.tail _ harg)⟩

theorem Scanned.spread {t node : SExpr} (h : Scanned n t)
    (hspread : spreadTarget? t = some (.form node)) : Scanned n node := by
  obtain ⟨mark, r, rfl, hmark⟩ := spreadTarget?_form hspread
  have harrow : isArrowList [mark, node] = false := by simp [isArrowList, SExpr.isSymbol, hmark]
  obtain ⟨hcounted, hcount⟩ := h
  refine ⟨?_, implicitCount_item_le hcount harrow node (by simp)⟩
  cases hcounted with
  | modest hmodest => exact .modest (hmodest.item (by simp))
  | form _ _ _ _ hargs | call _ _ _ _ hargs | applied _ _ _ hargs => exact hargs node (.head _)
  | binding _ _ hspecial | cond _ _ hspecial | trying _ _ hspecial =>
    cases hmark
    cases hspecial
  | arrow => simp [SExpr.symbol?] at hmark

theorem lowerParams_ne_nil {spec : FunctionSpec} (h : spec.params.params ≠ []) :
    Ensures (spec.lowerParams lower) (· ≠ []) := by
  refine .bind (fun _ _ _ => lowerParamTargets_length) fun _ hlength => ?_
  refine .bind (U := (· ≠ [])) (.ite ?_ (.pure ?_)) fun _ hparams => .after fun _ => .pure hparams
  · exact .after fun _ => .pure (cons_ne_nil _ _)
  · exact fun hnil => h (length_eq_zero_iff.mp (hlength ▸ hnil ▸ rfl))

theorem arrowOf_ensures {form : Form} {isAsync : Bool} {list : ParamList}
    {body : List SExpr} (h : list.params ≠ []) : Ensures (arrowOf lower form isAsync list body) fun node =>
      ∃ f : Function, node = ⟨.function f, form.position⟩ ∧ f.isArrow = true ∧ f.params ≠ [] := by
  rw [arrowOf, buildFunction_eq, bind_assoc]
  refine .bind (lowerParams_ne_nil h) fun _ hparams => ?_
  rw [bind_assoc]
  refine .after fun _ => ?_
  rw [bind_assoc]
  exact .after fun c => .pure ⟨_, rfl, rfl, hparams⟩

theorem lowerArrow_ensures {form : Form} {isAsync : Bool} (h : OpensParams form.args) :
    Ensures (lowerArrow lower form isAsync) fun node =>
      ∃ f : Function, node = ⟨.function f, form.position⟩ ∧ f.isArrow = true ∧ f.params ≠ [] := by
  obtain ⟨node, name, args⟩ := form
  cases args with
  | nil => exact h.elim
  | cons first rest =>
    unfold lowerArrow
    dsimp only [OpensParams] at h ⊢
    split at h
    · next hvector =>
      rw [if_pos hvector]
      refine .bind (U := (·.params ≠ [])) (fun c list d hread => h list ?_) fun list => arrowOf_ensures
      exact (Idle.ofSyntax _ c list d hread).2.2
    · next hvector =>
      rw [if_neg hvector]
      exact arrowOf_ensures (by simpa [implicitParams] using h)

theorem Context.Passes.undeclared {S : Position → Prop} {T : SExpr → Prop} {c d : Context}
    (h : c.Passes (.within S T) d) (hreg : d.registry = c.registry) :
    c.Passes (.implicit k) d ∧ (c.Apt (.implicit k) → d.Apt (.implicit k)) := by
  refine ⟨⟨h.options, h.wrapperDepth, h.nextFresh, h.loops, h.recurs, fun _ _ _ _ _ => trivial,
    fun hw => absurd rfl (hw "recur" none [] none trivial)⟩, fun hc => ?_⟩
  exact ⟨h.options ▸ hc.helper, hreg ▸ hc.registry⟩

theorem lowerArrowTree_sourced {H : Prop} {args : List SExpr} (hopens : OpensParams args)
    (hundeclared : (SExpr.list (.symbol "=>" q :: args) p).signatures = []) :
    Sourced (.implicit k) H (Lowering.lower (.list (.symbol "=>" q :: args) p))
      fun result => ∀ node ∈ result, node.Anchored (.implicit k) := by
  have hshape : Ensures (Lowering.lower (.list (.symbol "=>" q :: args) p)) fun result =>
      ∀ node ∈ result, node.Anchored (.implicit k) := by
    intro c result d hrun
    have hmeaning : HeadMeaning.ofName "=>" = .special .arrow := rfl
    obtain ⟨node, hnode, rfl⟩ := lower_special_ok hmeaning hrun
    obtain ⟨f, rfl, harrow, hparams⟩ := lowerArrow_ensures hopens c node d hnode
    rintro _ ⟨⟩
    have hpending : Pending (.implicit k) ⟨.function f, p⟩ :=
      pending_at rfl known_implicit (every_shut harrow hparams)
    exact hpending.orPlace known_implicit
  intro c
  have hends := lower_sourced.lowers H (.list (.symbol "=>" q :: args) p)
    (suits_within (S := fun _ => True) (T := fun _ => True) fun _ _ => ⟨fun _ _ => trivial, trivial⟩) c
  have hreg := (lower_logs (.list (.symbol "=>" q :: args) p) c).registry_eq hundeclared
  generalize hrun : Lowering.lower (.list (.symbol "=>" q :: args) p) c = r at hends hreg ⊢
  cases hends with
  | ok hpasses _ =>
    obtain ⟨hkept, hapt⟩ := hpasses.undeclared (hreg.1 _ _ rfl)
    exact .ok hkept fun _ hc _ => ⟨hapt hc, hshape c _ _ hrun⟩
  | error hpasses _ hraised =>
    obtain ⟨hkept, hapt⟩ := hpasses.undeclared (hreg.2 _ _ rfl)
    exact .error hkept (fun _ hc _ => hapt hc) fun _ => hraised fun _ _ _ _ => trivial

theorem LowersOn.below {w : Watch} {Q : SExpr → Prop} {depth : Nat}
    (hknown : ∀ {t : SExpr}, Q t → w.Known t.position)
    (hsilent : ∀ {text : String} {p : Option Position}, Q (.symbol text p) → w.Silent text)
    (hspread : ∀ {t node : SExpr}, Q t → spreadTarget? t = some (.form node) → Q node)
    (h : ∀ t : SExpr, t.depth < depth → Q t → ∀ H, Sourced w H (Lowering.lower t)
      fun result => ∀ node ∈ result, node.Anchored w) : LowersOn w Q (lowerBelow depth) := by
  refine ⟨hknown, hsilent, hspread, fun H t ht => ?_⟩
  unfold lowerBelow
  split
  · next hdepth => exact h t hdepth ht H
  · exact .fault _ nofun

section Forms

variable {H : Prop} {name : String} {args : List SExpr} (hn : n ≤ k) (hk : k < 2 ^ 64)

theorem lowerSpecialTree_sourced {special : SpecialForm}
    (hspecial : HeadMeaning.ofName name = .special special)
    (h : TracedNode (.implicit k) lower H
      (lowerSpecial lower ⟨.list (.symbol name q :: args) p, name, args⟩ special)
      (lowerSpecial lower (Form.erase ⟨.list (.symbol name q :: args) p, name, args⟩) special)) :
    Sourced (.implicit k) H (lowerList lower (.symbol name q :: args) p)
      fun result => ∀ node ∈ result, node.Anchored (.implicit k) := by
  refine .inForm name known_implicit ?_
  unfold lowerNamed
  rw [hspecial]
  exact (Traced.placed known_implicit h).sourced

include hn hk

theorem clauseParts_scanned (harrow : isArrowList items = false) (hcount : implicitCount (.list items p) ≤ n)
    (hitems : ∀ item ∈ items, Counted n item) :
    ClauseParts (.implicit k) (Scanned n) (.list items p) := by
  have hcounts := implicitCount_item_le hcount harrow
  refine ⟨known_implicit, ?_⟩
  rintro _ _ ⟨⟩
  refine ⟨each_iff.mpr fun item hitem => ⟨hitems item hitem, hcounts item hitem⟩, ?_⟩
  intro text q hsymbol
  cases hitems _ hsymbol with
  | modest hmodest => exact hmodest.suits (hcounts _ hsymbol) hn hk

theorem bindingParts_scanned {target : SExpr} {rest : List SExpr}
    (hcounts : ∀ item ∈ target :: rest, implicitCount item ≤ n)
    (hdeclared : target.items? = none ∨ isDestructuring target = true → target.Modest n)
    (hlist : ∀ items r, target = .list items r → isArrowList items = false)
    (htargets : ∀ pair ∈ pairsOf target.bindingItems, pair.1.Modest n)
    (hvalues : ∀ pair ∈ pairsOf target.bindingItems, Counted n pair.2)
    (hrest : ∀ form ∈ rest, Counted n form) :
    BindingParts (.implicit k) (Scanned n) target rest where
  known := known_implicit
  declared := fun h => (hdeclared h).suits (hcounts _ (.head _)) hn hk
  pairs := by
    intro pair hpair
    obtain ⟨htarget, hvalue⟩ := mem_of_pairsOf hpair
    have hle : ∀ item ∈ target.bindingItems, implicitCount item ≤ n := by
      intro item hitem
      cases target with
      | symbol | literal => cases hitem
      | list items r =>
        exact implicitCount_item_le (hcounts _ (.head _)) (hlist items r rfl) item
          (mem_of_bindingItems hitem)
    exact ⟨(htargets pair hpair).suits (hle _ htarget) hn hk, hvalues pair hpair, hle _ hvalue⟩
  rest := each_iff.mpr fun form hform => ⟨hrest form hform, hcounts form (.tail _ hform)⟩

theorem lowerList_scanned (hstrict : LowersSourced (.implicit k) lower)
    (hQ : LowersOn (.implicit k) (Scanned n) lower) (hcount : implicitCount (.list items p) ≤ n)
    (h : Counted n (.list items p)) : (SExpr.list items p).Modest n ∨
      (∃ q args, items = .symbol "=>" q :: args ∧ OpensParams args ∧
        (SExpr.list items p).signatures = []) ∨ Sourced (.implicit k) H (lowerList lower items p)
        fun result => ∀ node ∈ result, node.Anchored (.implicit k) := by
  cases h with
  | modest hmodest => exact .inl hmodest
  | arrow _ q hopens hundeclared => exact .inr (.inl ⟨q, _, rfl, hopens, hundeclared⟩)
  | @form name special args _ q hspecial hvalues hargs =>
    have hname : name ≠ "=>" := by
      rintro rfl
      cases hspecial
      cases hvalues
    have hparams : special.hasParams = false := by
      cases special <;> first | rfl | cases hvalues
    refine .inr (.inr (lowerSpecialTree_sourced hspecial (lowerSpecial_traced hstrict hQ known_implicit ?_
      (fun h => absurd (hparams.symm.trans h) Bool.false_ne_true) (fun _ _ => trivial)
      fun _ hw => hw "recur" none [] none trivial rfl)))
    rw [hvalues]
    exact Scanned.args hargs (implicitCount_item_le hcount (isArrowList_eq_false hname))
  | @call name args _ q hcalled hagrees hargs =>
    have hname : name ≠ "=>" := by
      rintro rfl
      cases hcalled
    have hcounts := implicitCount_item_le hcount (isArrowList_eq_false hname)
    have hsilent : (Watch.implicit k).Silent name := by
      intro given hgiven hgives
      rw [mem_singleton.mp hgiven] at hgives
      have hhead := hcounts _ (.head _)
      rw [implicitCount, hagrees k hk hgives] at hhead
      exact absurd hhead (by simp; omega)
    refine .inr (.inr (.inForm name known_implicit ?_))
    unfold lowerNamed
    rw [hcalled]
    exact (Traced.placed known_implicit (Traced.pending (lowerNamedCall_traced hQ hsilent
      known_implicit known_implicit (Scanned.args hargs hcounts)))).sourced
  | @applied inner args _ q hhead hargs =>
    have hcounts := implicitCount_item_le hcount rfl
    refine .inr (.inr (.map (lowerApplied_traced hQ ⟨hhead, hcounts _ (.head _)⟩ known_implicit
      (Scanned.args hargs hcounts)).sourced fun _ _ hnode => ?_))
    rintro _ ⟨⟩
    exact hnode
  | @binding name kind target rest _ q hspecial hdeclared hlist htargets hvalues hrest =>
    have hname : name ≠ "=>" := by
      rintro rfl
      cases hspecial
    have hcounts := implicitCount_item_le hcount (isArrowList_eq_false hname)
    have hform : (Watch.implicit k).Known
        (Form.position ⟨.list (.symbol name q :: target :: rest) p, name, target :: rest⟩) :=
      known_implicit
    refine .inr (.inr (lowerSpecialTree_sourced hspecial
      (lowerBinding_traced hstrict hform hQ kind ?_)))
    rintro _ _ ⟨⟩
    exact bindingParts_scanned hn hk (fun item hitem => hcounts item (.tail _ hitem)) hdeclared hlist
      htargets hvalues hrest
  | @cond name clauses _ q hspecial hlists hitems =>
    have hname : name ≠ "=>" := by
      rintro rfl
      cases hspecial
    have hcounts := implicitCount_item_le hcount (isArrowList_eq_false hname)
    refine .inr (.inr (lowerSpecialTree_sourced hspecial
      (lowerCond_traced hQ known_implicit (each_iff.mpr fun clause hclause => ?_) fun _ _ => trivial)))
    cases clause with
    | symbol | literal => exact ⟨known_implicit, nofun⟩
    | list inner r =>
      exact clauseParts_scanned hn hk (hlists inner r hclause) (hcounts _ (.tail _ hclause))
        (hitems inner r hclause)
  | @trying name args _ q hspecial hbody hclauses =>
    have hname : name ≠ "=>" := by
      rintro rfl
      cases hspecial
    have hcounts := implicitCount_item_le hcount (isArrowList_eq_false hname)
    refine .inr (.inr (lowerSpecialTree_sourced hspecial (lowerTry_traced hstrict known_implicit hQ
      (each_iff.mpr fun arg harg => ?_) (each_iff.mpr fun arg harg => ⟨known_implicit, fun hclause => ?_⟩)
      trivial)))
    · have hmem := takeWhile_subset _ harg
      have hplain := mem_takeWhile_imp harg
      exact ⟨hbody arg hmem (by simpa using hplain), hcounts arg (.tail _ hmem)⟩
    · have hmem := dropWhile_subset _ harg
      cases arg with
      | symbol | literal => cases hclause
      | list inner r =>
        exact clauseParts_scanned hn hk (isArrowList_of_isTryClause hclause) (hcounts _ (.tail _ hmem))
          (hclauses inner r hmem hclause)

theorem lower_scanned : LowersOn (.implicit k) (Scanned n) Lowering.lower := by
  have hsilent {text : String} {p : Option Position} (ht : Scanned n (.symbol text p)) :
      (Watch.implicit k).Silent text := by
    cases ht.1 with
    | modest hmodest => exact (hmodest.suits ht.2 hn hk).symbol
  refine ⟨fun _ => known_implicit, hsilent, Scanned.spread, fun H t ht => ?_⟩
  induction hdepth : t.depth using Nat.strong_induction_on generalizing t H with
  | h depth ih =>
    subst hdepth
    have hmodest (h : t.Modest n) := lower_sourced.lowers H t (h.suits ht.2 hn hk)
    cases t with
    | symbol text p =>
      cases ht.1 with
      | modest h => exact hmodest h
    | literal value p =>
      cases ht.1 with
      | modest h => exact hmodest h
    | list items p =>
      have hQ : LowersOn (.implicit k) (Scanned n) (lowerBelow (SExpr.depth (.list items p))) :=
        .below (fun _ => known_implicit) hsilent Scanned.spread fun u hu hscanned H =>
          ih u.depth hu H u hscanned rfl
      have hstrict : LowersSourced (.implicit k) (lowerBelow (SExpr.depth (.list items p))) :=
        .below lower_sourced.known lower_sourced.silent lower_sourced.spread fun u _ hu H =>
          lower_sourced.lowers H u hu
      rcases lowerList_scanned (H := H) hn hk hstrict hQ ht.2 ht.1 with
        h | ⟨q, args, rfl, hopens, hundeclared⟩ | h
      · exact hmodest h
      · exact lowerArrowTree_sourced hopens hundeclared
      · rw [lower_list_below]
        exact h

end Forms

/-! ## Arrow functions -/

/-- Every identifier that names an implicit parameter, outside of arrow functions with parameters, names one of the
first `n`. -/
def ImplicitBelow (n : Nat) (body : List Node) : Prop :=
  ∀ node ∈ body, ∀ m ∈ node.visible, ∀ k < 2 ^ 64, ∀ ascribed,
    m.kind = .identifier (implicitName k) ascribed → k < n

theorem hidden_implicit (k low high : Nat) : (Watch.implicit k).Hidden low high := by
  intro stem hstem n _ _ hmem
  have hhead := congrArg (·.toList.head?) (mem_singleton.mp hmem)
  simp only [freshStems, mem_cons, not_mem_nil, or_false] at hstem
  rcases hstem with rfl | rfl | rfl | rfl | rfl <;> simp [temporary] at hhead

theorem unwatched_start (k : Nat) : (Context.start "" {}).Unwatched (.implicit k) where
  helper := by
    intro hmem
    have hhead := congrArg (·.toList.head?) (mem_singleton.mp hmem)
    simp [Context.start] at hhead
  registry := by
    refine ⟨?_, False.elim⟩
    rintro default ⟨_, _, _, hfound, -⟩
    cases hfound
  loops := forall_mem_nil _

/-- An arrow function with implicit parameters, in whose body the scan counts every implicit parameter and
that is lowered in a state that gives none, has a parameter for each of them. The scan counts names and
chains of names. The number of the parameters is a word: if one of them has the last number of all, there
are none. -/
theorem implicit_parameters_cover {form : Form} {isAsync : Bool} {c d : Context} {node : Node}
    (hvector : hasParamVector form.args = false) (hwords : implicitCounts form.args < 2 ^ 64)
    (hargs : ∀ arg ∈ form.args, Counted (implicitCounts form.args) arg)
    (hc : ∀ k, implicitCounts form.args ≤ k → c.Unwatched (.implicit k))
    (h : lowerArrow Lowering.lower form isAsync c = .ok node d) :
    ∃ f : Function, node = ⟨.function f, form.position⟩ ∧
      f.params = implicitTargets (implicitCounts form.args) ∧
      ImplicitBelow (implicitCounts form.args) f.body := by
  obtain ⟨tree, name, args⟩ := form
  cases args with
  | nil => cases h
  | cons first rest =>
    have harity : implicitArity (first :: rest) = implicitCounts (first :: rest) :=
      Nat.mod_eq_of_lt hwords
    have harrow : lowerArrow Lowering.lower ⟨tree, name, first :: rest⟩ isAsync =
        arrowOf Lowering.lower ⟨tree, name, first :: rest⟩ isAsync
          ⟨implicitParams (implicitCounts (first :: rest)), false⟩ (first :: rest) := by
      rw [← harity]
      exact if_neg (Bool.eq_false_iff.mp hvector)
    rw [harrow] at h
    obtain ⟨f, hf, rfl⟩ := map_ok h
    refine ⟨f, rfl, ?_, fun node hnode m hm k hk _ hkind => ?_⟩
    · rw [buildFunction_eq, lowerParams_implicit rfl rfl, pure_bind] at hf
      obtain ⟨_, _, -, hf⟩ := bind_ok hf
      obtain ⟨_, -, rfl⟩ := map_ok hf
      rfl
    · by_contra hlt
      have hn : implicitCounts (first :: rest) ≤ k := Nat.le_of_not_lt hlt
      have hbody : Each (Scanned (implicitCounts (first :: rest))) (first :: rest) :=
        each_iff.mpr fun arg harg => ⟨hargs arg harg, implicitCount_le harg⟩
      obtain ⟨-, -, -, hallowed⟩ := (buildFunction_traced (lower_scanned hn hk) known_implicit
        (lowerParams_implicit_traced rfl rfl) hbody).sourced.run hf (hc k hn) (hidden_implicit k _ _)
      have hspares := (every_iff.mp (everyIn_iff.mp hallowed node hnode) m hm).spares _
        (.head _)
      rw [hkind] at hspares
      exact hspares rfl

/-- `(=> (let (g (=> $3)) (f $0 g)))`. -/
def nestingArrow : Form :=
  ⟨.list [] none, "=>", [.list [.symbol "let" none,
    .list [.symbol "g" none, .list [.symbol "=>" none, .symbol "$3" none] none] none,
    .list [.symbol "f" none, .symbol "$0" none, .symbol "g" none] none] none]⟩

/-- The arrow function inside has four parameters, and the one around it has one. -/
theorem implicit_parameters_cover_nested : ∃ f d,
    lowerArrow Lowering.lower nestingArrow false (Context.start "" {}) = .ok ⟨.function f, none⟩ d ∧
      f.params = implicitTargets 1 ∧ ImplicitBelow 1 f.body := by
  have hmodest {text : String} (h : Symbol.Unmarked text) : (SExpr.symbol text none).Modest 1 :=
    .symbol (Symbol.agrees_of_unmarked h)
  have hf : Symbol.Unmarked "f" := ⟨by decide, by decide, by decide, by decide, by decide⟩
  have hg : Symbol.Unmarked "g" := ⟨by decide, by decide, by decide, by decide, by decide⟩
  have hfirst : Symbol.Unmarked "$0" := ⟨by decide, by decide, by decide, by decide, by decide⟩
  have hinner : OpensParams [.symbol "$3" none] := by
    rw [OpensParams, if_neg (by decide)]
    decide
  have hargs : ∀ arg ∈ nestingArrow.args, Counted 1 arg := by
    refine forall_mem_singleton.mpr (.binding none none rfl (fun h => absurd h (by decide)) ?_ ?_ ?_ ?_)
    · rintro _ _ ⟨⟩
      rfl
    · exact forall_mem_singleton.mpr (hmodest hg)
    · exact forall_mem_singleton.mpr (.arrow none none hinner rfl)
    · refine forall_mem_singleton.mpr (.call none none rfl (Symbol.agrees_of_unmarked hf) ?_)
      rw [forall_mem_cons, forall_mem_singleton]
      exact ⟨.modest (hmodest hfirst), .modest (hmodest hg)⟩
  obtain ⟨node, d, hrun⟩ : ∃ node d,
      lowerArrow Lowering.lower nestingArrow false (Context.start "" {}) = .ok node d := ⟨_, _, rfl⟩
  obtain ⟨f, rfl, hparams, hbelow⟩ :=
    implicit_parameters_cover rfl (by decide) hargs (fun k _ => unwatched_start k) hrun
  exact ⟨f, d, hrun, hparams, hbelow⟩

/-- A parameter that is only spread is missing. -/
theorem spread_parameter_missing :
    let body := [return? (some (call (ident "f") [spread (ident "$0")]))]
    Lowering.lower (.list [.symbol "=>" none, .list [.symbol "f" none, .symbol "...$0" none] none] none)
      (Context.start "" {}) = .ok (some (function (Function.arrow [] body))) (Context.start "" {}) ∧
    ¬ImplicitBelow 0 body := by
  refine ⟨rfl, fun h => ?_⟩
  have hlt := h _ (.head _) (ident "$0") (mem_of_getElem? (i := 4) rfl) 0 (by decide) none rfl
  exact Nat.not_lt_zero 0 hlt

end LispLowering
