import Mathlib
import LispLowering.Lowering.Dispatch

/-!
# Member chains
-/

namespace LispLowering

open Lowering List

variable {cs : List Char} {first : Segment} {later : List Segment} {root : String}

/-! ## Texts -/

namespace Symbol

/-- The text joins the names: the first one and the later ones, each after its separator. -/
inductive Joins : List Char → String → List Segment → Prop where
  | last {cs : List Char} : '.' ∉ cs → Joins cs (String.ofList cs) []
  /-- A question mark before the dot would belong to the separator. -/
  | plain {cs rest : List Char} {next : String} {later : List Segment} : '.' ∉ cs →
      cs.getLast? ≠ some '?' → Joins rest next later →
      Joins (cs ++ '.' :: rest) (String.ofList cs) (⟨next, false⟩ :: later)
  | optional {cs rest : List Char} {next : String} {later : List Segment} : '.' ∉ cs →
      Joins rest next later →
      Joins (cs ++ '?' :: '.' :: rest) (String.ofList cs) (⟨next, true⟩ :: later)

theorem Joins.cons {c : Char} {cs : List Char} {first : List Char} {later : List Segment}
    (h : Joins cs (String.ofList first) later) (hdot : c ≠ '.')
    (hmark : ∀ rest, c = '?' → cs ≠ '.' :: rest) : Joins (c :: cs) (String.ofList (c :: first)) later := by
  generalize hname : String.ofList first = name at h
  have hfirst : '.' ∉ first → '.' ∉ c :: first := fun h => by simp [hdot.symm, h]
  cases h with
  | last hcs =>
    cases String.ofList_injective hname
    exact .last (hfirst hcs)
  | @plain _ rest _ _ hcs hlast hrest =>
    cases String.ofList_injective hname
    refine .plain (hfirst hcs) ?_ hrest
    cases first with
    | nil =>
      rintro ⟨⟩
      exact hmark rest rfl rfl
    | cons _ _ => simpa using hlast
  | @optional _ rest _ _ hcs hrest =>
    cases String.ofList_injective hname
    exact .optional (hfirst hcs) hrest

theorem joins_chainPieces (cs : List Char) : Joins cs (String.ofList (chainPieces cs).1)
      ((chainPieces cs).2.map fun piece => ⟨String.ofList piece.2, piece.1⟩) := by
  induction cs using chainPieces.induct with
  | case1 => exact .last not_mem_nil
  | case2 rest first later heq ih =>
    rw [heq] at ih
    simp only [chainPieces, heq]
    exact .optional not_mem_nil ih
  | case3 rest first later heq _ ih =>
    rw [heq] at ih
    simp only [chainPieces, heq, if_true]
    exact .plain not_mem_nil (by simp) ih
  | case4 c rest hmark first later heq hdot ih =>
    rw [heq] at ih
    rw [chainPieces]
    · simp only [heq, if_neg hdot]
      exact ih.cons hdot fun rest hc hrest => hmark rest hc hrest
    · exact hmark

/-- The segments between the separators of a symbol, with the empty ones. -/
def segments (symbol : String) : List Segment :=
  ((false, (chainPieces symbol.toList).1) :: (chainPieces symbol.toList).2).map fun piece =>
    ⟨String.ofList piece.2, piece.1⟩

theorem chain?_eq (symbol : String) :
    chain? symbol = if ∃ segment ∈ segments symbol, segment.name = "" then none else some (segments symbol) := by
  have hany : (∃ segment ∈ segments symbol, segment.name = "") ↔ (((false, (chainPieces symbol.toList).1) ::
      (chainPieces symbol.toList).2).any fun piece => piece.2.isEmpty) = true := by
    simp only [segments, mem_map, exists_exists_and_eq_and, any_eq_true, List.isEmpty_iff,
      String.ofList_eq_empty_iff]
  simp only [chain?, hany]
  rfl

/-- The symbol is a chain: it joins names, and none of them is empty. -/
structure Chains (symbol root : String) (segments : List Segment) : Prop where
  joins : Joins symbol.toList root segments
  root_ne : root ≠ ""
  names_ne : ∀ segment ∈ segments, segment.name ≠ ""

theorem chains_of_chain? {symbol : String}
    (h : chain? symbol = some (first :: later)) : Chains symbol first.name later := by
  rw [chain?_eq] at h
  split at h
  · cases h
  · next hnames =>
    cases h
    have hne : ∀ segment ∈ segments symbol, segment.name ≠ "" := fun segment hsegment hname =>
      hnames ⟨segment, hsegment, hname⟩
    exact ⟨joins_chainPieces symbol.toList, hne _ (.head _), fun _ hsegment => hne _ (.tail _ hsegment)⟩

/-! ## Writing segments back -/

/-- The separator before a name, and the name. -/
def Segment.write (segment : Segment) : List Char :=
  (if segment.optional then ['?', '.'] else ['.']) ++ segment.name.toList

/-- The text of a list of segments. No separator stands before the first one. -/
def write : List Segment → String
  | [] => ""
  | first :: later => String.ofList (first.name.toList ++ later.flatMap Segment.write)

/-- The segments can be read back from their text: no name holds a dot, and none ends with a question mark
that a plain dot after it would turn into a part of the separator. -/
structure Separable (segments : List Segment) : Prop where
  root : segments.head?.map Segment.optional = some false
  dotless : ∀ segment ∈ segments, '.' ∉ segment.name.toList
  unmarked : segments.IsChain fun segment next =>
    next.optional = false → segment.name.toList.getLast? ≠ some '?'

theorem chainPieces_append {tail : List Char} (hdot : '.' ∉ cs)
    (hmark : cs.getLast? = some '?' → tail.head? ≠ some '.') :
    chainPieces (cs ++ tail) = (cs ++ (chainPieces tail).1, (chainPieces tail).2) := by
  induction cs with
  | nil => rfl
  | cons c cs ih =>
    simp only [mem_cons, not_or] at hdot
    have hrest : chainPieces (cs ++ tail) = (cs ++ (chainPieces tail).1, (chainPieces tail).2) := by
      refine ih hdot.2 fun hlast => hmark ?_
      rw [getLast?_cons, hlast]
      rfl
    rw [cons_append, chainPieces]
    · simp [hrest, Ne.symm hdot.1]
    · -- A dot after the question mark `c` would be the head of `cs`, or of the tail.
      rintro rest rfl hhead
      cases cs with
      | nil => exact hmark rfl (by rw [← nil_append tail, hhead]; rfl)
      | cons _ _ =>
        cases hhead
        exact hdot.2 (.head _)

theorem Joins.dotless (h : Joins cs root later) :
    '.' ∉ root.toList ∧ ∀ segment ∈ later, '.' ∉ segment.name.toList := by
  induction h with
  | last hcs => exact ⟨by simpa using hcs, by simp⟩
  | plain hcs _ _ ih | optional hcs _ ih =>
    exact ⟨by simpa using hcs, forall_mem_cons.mpr ih⟩

theorem Joins.unmarked (h : Joins cs root later)
    (flag : Bool) : List.IsChain (fun segment next : Segment => next.optional = false →
      segment.name.toList.getLast? ≠ some '?') (⟨root, flag⟩ :: later) := by
  induction h generalizing flag with
  | last _ => exact .singleton _
  | plain _ hlast _ ih => exact .cons_cons (fun _ => by simpa using hlast) (ih false)
  | optional _ _ ih => exact .cons_cons (by simp) (ih true)

theorem Joins.text (h : Joins cs root later) : cs = root.toList ++ later.flatMap Segment.write := by
  induction h with
  | last _ => simp
  | plain _ _ _ ih | optional _ _ ih => simp [Segment.write, ← ih]

theorem segments_separable (symbol : String) :
    Separable (segments symbol) ∧ write (segments symbol) = symbol := by
  have h := joins_chainPieces symbol.toList
  refine ⟨⟨rfl, forall_mem_cons.mpr h.dotless, h.unmarked false⟩, ?_⟩
  exact (congrArg String.ofList h.text.symm).trans String.ofList_toList

theorem chainPieces_write
    (hdot : ∀ segment ∈ first :: later, '.' ∉ segment.name.toList)
    (hchain : (first :: later).IsChain fun segment next =>
      next.optional = false → segment.name.toList.getLast? ≠ some '?') :
    chainPieces (first.name.toList ++ later.flatMap Segment.write) =
      (first.name.toList, later.map fun segment => (segment.optional, segment.name.toList)) := by
  obtain ⟨hfirst, hlater⟩ := forall_mem_cons.mp hdot
  induction later generalizing first with
  | nil =>
    rw [flatMap_nil, chainPieces_append hfirst (by simp)]
    simp [chainPieces]
  | cons next later ih =>
    obtain ⟨hnext, htail⟩ := isChain_cons_cons.mp hchain
    have hpieces := ih hlater htail (hlater _ (.head _)) fun _ h => hlater _ (.tail _ h)
    rw [flatMap_cons, Segment.write, append_assoc]
    cases hoptional : next.optional with
    | true =>
      rw [chainPieces_append hfirst (by simp)]
      simp [chainPieces, hpieces, hoptional]
    | false =>
      rw [chainPieces_append hfirst fun hlast => absurd hlast (hnext hoptional)]
      simp [chainPieces, hpieces, hoptional]

theorem segments_write {list : List Segment} (h : Separable list) : segments (write list) = list := by
  cases list with
  | nil => cases h.root
  | cons first later =>
    have hfirst : first.optional = false := Option.some.inj h.root
    have hpieces : chainPieces (write (first :: later)).toList = _ :=
      (congrArg chainPieces String.toList_ofList).trans (chainPieces_write h.dotless h.unmarked)
    simp [segments, hpieces, Function.comp_def, ← hfirst]

/-- A symbol is the text of exactly one list of separable segments. If no name in that list is empty, the
symbol is split into it, and otherwise the symbol is not split. -/
theorem chain?_inverts_write (symbol : String) : (∃! list, Separable list ∧ write list = symbol) ∧
    (∀ list, chain? symbol = some list ↔
      Separable list ∧ write list = symbol ∧ ∀ segment ∈ list, segment.name ≠ "") ∧
    (chain? symbol = none ↔
      ∃ list, Separable list ∧ write list = symbol ∧ ∃ segment ∈ list, segment.name = "") := by
  obtain ⟨hseparable, hwrite⟩ := segments_separable symbol
  have hunique : ∀ list, Separable list ∧ write list = symbol → list = segments symbol := by
    rintro list ⟨hlist, rfl⟩
    exact (segments_write hlist).symm
  rw [chain?_eq]
  refine ⟨⟨_, ⟨hseparable, hwrite⟩, hunique⟩, fun list => ?_, ?_⟩
  · constructor
    · intro h
      split at h
      · cases h
      · next hnames =>
        cases h
        exact ⟨hseparable, hwrite, fun segment hmem hname => hnames ⟨segment, hmem, hname⟩⟩
    · rintro ⟨hlist, htext, hne⟩
      cases hunique list ⟨hlist, htext⟩
      rw [if_neg]
      rintro ⟨segment, hmem, hname⟩
      exact hne segment hmem hname
  · constructor
    · intro h
      split at h
      · next hempty => exact ⟨_, hseparable, hwrite, hempty⟩
      · cases h
    · rintro ⟨list, hlist, htext, hempty⟩
      cases hunique list ⟨hlist, htext⟩
      exact if_pos hempty

def Segment.isIndex (segment : Segment) : Bool := segment.name.toList.all Char.isDigit

end Symbol

/-! ## Nodes -/

/-- One access of a chain: to what, whether by value, and whether it is optional. -/
structure Access where
  property : Node
  computed : Bool
  optional : Bool

/-- The root of a chain of accesses, and the accesses in order. -/
def Node.accesses : Node → Node × List Access
  | ⟨.member object property computed, _⟩ =>
    (object.accesses.1, object.accesses.2 ++ [⟨property, computed, false⟩])
  | ⟨.optionalMember object property computed optional, _⟩ =>
    (object.accesses.1, object.accesses.2 ++ [⟨property, computed, optional⟩])
  | node => (node, [])

/-- The access for a name of a chain. An index is never optional. -/
def Symbol.Segment.access (p : Option Position) (segment : Symbol.Segment) : Access :=
  if segment.isIndex then
    ⟨(Node.number (Binary64.ofDecimal false (Binary64.digitsValue segment.name.toList) 0)).place p, true, false⟩
  else ⟨Node.ident (Symbol.property segment.name), false, segment.optional⟩

namespace Lowering

variable {p : Option Position}

theorem accesses_accessSegment (object : Node) (segment : Symbol.Segment) :
    (accessSegment p object segment).accesses =
      (object.accesses.1, object.accesses.2 ++ [segment.access p]) := by
  unfold accessSegment Symbol.Segment.access Symbol.Segment.isIndex
  split
  · rfl
  · split
    · next h => rw [h]; rfl
    · next h => rw [Bool.eq_false_of_not_eq_true h]; rfl

theorem accesses_foldl (segments : List Symbol.Segment) (object : Node) :
    (segments.foldl (accessSegment p) object).accesses =
      (object.accesses.1, object.accesses.2 ++ segments.map (·.access p)) := by
  induction segments generalizing object with
  | nil => simp
  | cons segment rest ih => simp [ih, accesses_accessSegment]

theorem accesses_chainRoot (name : String) :
    ((chainRoot name).place p).accesses = ((chainRoot name).place p, []) := by
  unfold chainRoot
  split <;> rfl

theorem reference_chain {name : String} (hchain : Symbol.isChain name = true)
    (hforeign : Text.stripStart? "js/" name = none) (hkeyword : Symbol.keyword? name = none) :
    reference name p = memberChain name p := by
  have hconstant : constants.lookup name = none := by
    have hall : ∀ entry ∈ constants, Symbol.isChain entry.1 = false := by decide
    rw [lookup_eq_none_iff]
    intro entry hentry
    rw [bne_iff_ne]
    rintro rfl
    exact absurd (hall entry hentry) (by simp [hchain])
  have hplain : plainReference name p = memberChain name p := by
    simp [plainReference, hconstant, hforeign, hkeyword, hchain]
  have hdots : ∀ c rest, name.toList ≠ '.' :: '.' :: '.' :: c :: rest := by
    intro c rest h
    simp [Symbol.isChain, h] at hchain
  rw [reference, referenceChars]
  · simpa using hplain
  · exact hdots

end Lowering

/-- A dotted symbol that is lowered is a chain of accesses on its first name: one for each later name, in
order, by name or by number. An access by name is optional exactly where `?.` stands before the name. An
access by number is not, so the accesses are optional as the symbol tells if no number stands after `?.`, and
only then. -/
theorem member_chain_accesses {name : String} {p : Option Position} {c d : Context} {lowered : Option Node}
    (hchain : Symbol.isChain name = true) (hforeign : Text.stripStart? "js/" name = none)
    (hkeyword : Symbol.keyword? name = none) (h : Lowering.lower (.symbol name p) c = .ok lowered d) :
    d = c ∧ ∃ node root segments, lowered = some node ∧ Symbol.Chains name root segments ∧
      node.accesses = ((chainRoot root).place p, segments.map (·.access p)) ∧
      (node.accesses.2.map Access.optional = segments.map Symbol.Segment.optional ↔
        ∀ segment ∈ segments, segment.optional = true → segment.isIndex = false) := by
  have hlower : Lowering.lower (.symbol name p) = do
      return some (← Lower.ofExcept (memberChain name p)) := by
    rw [← reference_chain hchain hforeign hkeyword]
    rfl
  rw [hlower] at h
  unfold memberChain at h
  split at h
  · next first segments hsegments =>
    cases h
    have haccesses : (segments.foldl (accessSegment p) ((chainRoot first.name).place p)).accesses =
        ((chainRoot first.name).place p, segments.map (·.access p)) := by
      rw [accesses_foldl, accesses_chainRoot, nil_append]
    refine ⟨rfl, _, first.name, segments, rfl, Symbol.chains_of_chain? hsegments, haccesses, ?_⟩
    rw [haccesses, map_map, map_inj_left]
    refine forall₂_congr fun segment _ => ?_
    cases hindex : segment.isIndex <;> cases hoptional : segment.optional <;>
      simp [Symbol.Segment.access, hindex, hoptional]
  · cases h

/-- A name after `?.`, a number and a name. -/
theorem member_chain_accesses_mixed :
    Lowering.lower (.symbol "a?.b.0.c" none) (.start "" {}) = .ok (some (.member (.index
      ⟨.optionalMember (.ident "a") (.ident "b") false true, none⟩
      (.number (Binary64.ofDecimal false 0 0))) "c")) (.start "" {}) ∧
    ∃ root segments, Symbol.Chains "a?.b.0.c" root segments ∧ segments.length = 3 := by
  have h : Lowering.lower (.symbol "a?.b.0.c" none) (.start "" {}) = .ok (some (.member (.index
      ⟨.optionalMember (.ident "a") (.ident "b") false true, none⟩
      (.number (Binary64.ofDecimal false 0 0))) "c")) (.start "" {}) := by rfl
  obtain ⟨-, node, root, segments, hnode, hchains, haccesses, -⟩ :=
    member_chain_accesses (by decide) (by decide) (by decide) h
  cases hnode
  have hlength : 3 = (segments.map _).length := congrArg (fun accesses => accesses.2.length) haccesses
  exact ⟨h, root, segments, hchains, by simpa using hlength.symm⟩

/-- A number after `?.` becomes an access that is not optional. -/
theorem optional_index_dropped :
    Symbol.Chains "a?.0" "a" [⟨"0", true⟩] ∧ Lowering.lower (.symbol "a?.0" none) (.start "" {}) =
      .ok (some (.index (.ident "a") (.number (Binary64.ofDecimal false 0 0)))) (.start "" {}) := by
  have h : Symbol.chain? "a?.0" = some [⟨"a", false⟩, ⟨"0", true⟩] := by decide
  exact ⟨Symbol.chains_of_chain? h, rfl⟩

end LispLowering
