import LispLowering.Proofs.Trees

/-!
# Reading patterns
-/

namespace LispLowering

open SExpr List Pattern

variable {pattern : Pattern}
  {T : SExpr → Prop} {elements : List Pattern}

namespace Pattern

/-! ## Patterns inside of patterns -/

mutual

def parts : Pattern → List Pattern
  | ⟨kind, default, p⟩ => ⟨kind, default, p⟩ :: kindParts kind

def kindParts : PatternKind → List Pattern
  | .array elements => elementParts elements
  | .object properties rest => propertyParts properties ++ restParts rest
  | .rest inner => parts inner
  | .identifier _ _ | .skip => []

def elementParts : List Pattern → List Pattern
  | [] => []
  | element :: rest => parts element ++ elementParts rest

def propertyParts : List PropertyPattern → List Pattern
  | [] => []
  | ⟨_, value⟩ :: rest => parts value ++ propertyParts rest

def restParts : Option Pattern → List Pattern
  | none => []
  | some rest => parts rest

end

/-! ## Reading -/

/-- Only the last element takes the rest, and it has no default then. -/
structure RestsLast (elements : List Pattern) : Prop where
  last : ∀ element ∈ elements.dropLast, element.isRest = false
  undefaulted : ∀ element ∈ elements, element.isRest = true → element.default = none

/-- What takes the rest directly in the pattern is the last of its elements, without a default and not around
something that takes the rest. -/
def Regular (pattern : Pattern) : Prop :=
  match pattern.kind with
  | .array elements => RestsLast elements
  | .object properties rest =>
    (∀ property ∈ properties, property.value.isRest = false) ∧ ∀ target ∈ rest, target.isRest = false
  | .rest inner => inner.isRest = false
  | .identifier _ _ | .skip => True

/-- What reading checks of a pattern. -/
def Checked (pattern : Pattern) : Prop :=
  match pattern.kind with
  | .array elements => RestsLast elements
  | .object _ rest => ∀ target ∈ rest, target.isRest = false
  | _ => True

/-- The pattern does not have a default if it takes the rest. -/
def Undefaulted (pattern : Pattern) : Prop := pattern.isRest = true → pattern.default = none

variable {p : Option Position} {trees trees' : List SExpr}

theorem forall_parts {T : Pattern → Prop} :
    (∀ part ∈ pattern.parts, T part) ↔ T pattern ∧ ∀ part ∈ kindParts pattern.kind, T part := by
  obtain ⟨kind, default, p⟩ := pattern
  rw [parts, forall_mem_cons]

theorem forall_parts_withDefault {T : Pattern → Prop} (value : SExpr)
    (hT : T { pattern with default := some value } ↔ T pattern) :
    (∀ part ∈ parts { pattern with default := some value }, T part) ↔
      ∀ part ∈ pattern.parts, T part := by
  rw [forall_parts, forall_parts, hT]

/-! ## Targets that take the rest -/

mutual

/-- The trees that are read as the value of a property or behind a bare rest mark, at any depth of a
pattern. -/
def targets : SExpr → List SExpr
  | .list (head :: rest) _ =>
    match head.symbol? with
    | some "vector" => elementTargets rest
    | some "empty-array" => []
    | some "hash-map" => propertyTargets rest
    | some "empty-map" => []
    | _ => elementTargets (head :: rest)
  | _ => []

def elementTargets : List SExpr → List SExpr
  | [] => []
  | item :: rest =>
    if isRestMark item then
      match rest with
      | [] => []
      | target :: rest => target :: (targets target ++ elementTargets rest)
    else
      targets item ++
        match rest with
        | [] => []
        | [mark] => elementTargets [mark]
        | mark :: value :: rest =>
          if mark.isSymbol "=" then elementTargets rest else elementTargets (mark :: value :: rest)

def propertyTargets : List SExpr → List SExpr
  | [] => []
  | item :: rest =>
    if isRestMark item then []
    else
      match rest with
      | [] => []
      | target :: rest =>
        target :: (targets target ++
          match rest with
          | [] => []
          | [mark] => propertyTargets [mark]
          | mark :: given :: rest =>
            if mark.isSymbol "=" then propertyTargets rest
            else propertyTargets (mark :: given :: rest))

end

/-- None of the trees is a rest mark together with a name. -/
def Unmarked (trees : List SExpr) : Prop := ∀ t ∈ trees, isMarkedRest t = false

/-- The patterns are regular if and only if none of the trees begins with a rest mark. -/
def RegularBy (patterns : List Pattern) (trees : List SExpr) : Prop :=
  (∀ pattern ∈ patterns, pattern.Regular) ↔ Unmarked trees

theorem regularBy_nil {patterns : List Pattern} (h : ∀ pattern ∈ patterns, pattern.Regular) :
    RegularBy patterns [] :=
  iff_of_true h (forall_mem_nil _)

theorem RegularBy.append {patterns patterns' : List Pattern} (h : RegularBy patterns trees)
    (h' : RegularBy patterns' trees') : RegularBy (patterns ++ patterns') (trees ++ trees') := by
  unfold RegularBy Unmarked at *
  rw [forall_mem_append, forall_mem_append, h, h']

theorem RegularBy.withDefault (h : RegularBy pattern.parts trees) (value : SExpr) :
    RegularBy (parts { pattern with default := some value }) trees :=
  (forall_parts_withDefault value Iff.rfl).trans h

/-! ## What reading gives -/

variable {S : Supply} {t : SExpr} {inner : Pattern}

/-- A pattern that does not take the rest, of what may be drawn on, as it is read from a tree with
the given targets. -/
structure ReadAs (S : Supply) (trees : List SExpr) (pattern : Pattern) : Prop where
  drawn : pattern.Drawn S
  checked : ∀ part ∈ pattern.parts, part.Checked
  single : pattern.isRest = false
  regular : RegularBy pattern.parts trees

/-- A pattern as it is read from the tree: it takes the rest if the tree begins with a mark. -/
structure ReadFrom (S : Supply) (t : SExpr) (pattern : Pattern) : Prop where
  drawn : pattern.Drawn S
  checked : ∀ part ∈ pattern.parts, part.Checked
  undefaulted : pattern.Undefaulted
  marked : pattern.isRest = isMarkedRest t
  regular : RegularBy pattern.parts (targets t)

/-- The elements of a sequence as they are read from trees with the given targets. -/
structure ElementsRead (S : Supply) (trees : List SExpr) (elements : List Pattern) : Prop where
  drawn : ∀ element ∈ elements, element.Drawn S
  undefaulted : ∀ element ∈ elements, element.Undefaulted
  checked : ∀ part ∈ elementParts elements, part.Checked
  regular : RegularBy (elementParts elements) trees

/-- The properties of an object pattern, with what takes the rest, as they are read. The patterns
inside are regular and no property takes the rest unless a target begins with a mark. -/
structure PropertiesRead (S : Supply) (trees : List SExpr)
    (result : List PropertyPattern × Option Pattern) : Prop where
  entries : EntriesDrawn S result.1
  target : RestDrawn S result.2
  checked : ∀ part ∈ propertyParts result.1 ++ restParts result.2, part.Checked
  remaining : ∀ target ∈ result.2, target.isRest = false
  regular : ((∀ property ∈ result.1, property.value.isRest = false) ∧
    ∀ part ∈ propertyParts result.1 ++ restParts result.2, part.Regular) ↔ Unmarked trees

theorem ReadAs.readFrom (h : ReadAs S (targets t) pattern) (ht : isMarkedRest t = false) :
    ReadFrom S t pattern where
  drawn := h.drawn
  checked := h.checked
  undefaulted := fun hrest => absurd (h.single.symm.trans hrest) Bool.false_ne_true
  marked := h.single.trans ht.symm
  regular := h.regular

theorem readAs_leaf {kind : PatternKind} (hp : S.positions p) (hparts : kindParts kind = [])
    (hkind : kind.Drawn S) (hsingle : isRest ⟨kind, none, p⟩ = false)
    (hregular : Regular ⟨kind, none, p⟩) (hchecked : Checked ⟨kind, none, p⟩) :
    ReadAs S [] ⟨kind, none, p⟩ where
  drawn := ⟨hp, hkind, nofun⟩
  checked := forall_parts.mpr ⟨hchecked, hparts ▸ forall_mem_nil _⟩
  single := hsingle
  regular := regularBy_nil (forall_parts.mpr ⟨hregular, hparts ▸ forall_mem_nil _⟩)

theorem ReadAs.name {name : String} {ascribed : Option String} (hp : S.positions p)
    (hname : S.names name) : ReadAs S [] ⟨.identifier name ascribed, none, p⟩ :=
  readAs_leaf hp rfl hname rfl trivial trivial

theorem RegularBy.inRest (hmarked : inner.isRest = isMarkedRest t)
    (h : RegularBy inner.parts (targets t)) :
    RegularBy (parts ⟨.rest inner, none, p⟩) (t :: targets t) := by
  unfold RegularBy Unmarked at *
  rw [forall_mem_cons, ← h, ← hmarked]
  exact forall_mem_cons

/-! ### Elements -/

namespace ElementsRead

theorem nil : ElementsRead S [] [] where
  drawn := forall_mem_nil _
  undefaulted := forall_mem_nil _
  checked := forall_mem_nil _
  regular := regularBy_nil (forall_mem_nil _)

theorem cons (hdrawn : pattern.Drawn S) (hchecked : ∀ part ∈ pattern.parts, part.Checked)
    (hundefaulted : pattern.Undefaulted) (hregular : RegularBy pattern.parts trees)
    (h : ElementsRead S trees' elements) :
    ElementsRead S (trees ++ trees') (pattern :: elements) where
  drawn := forall_mem_cons.mpr ⟨hdrawn, h.drawn⟩
  undefaulted := forall_mem_cons.mpr ⟨hundefaulted, h.undefaulted⟩
  checked := forall_mem_append.mpr ⟨hchecked, h.checked⟩
  regular := hregular.append h.regular

theorem rest (hinner : ReadFrom S t inner) (hp : S.positions p)
    (h : ElementsRead S trees elements) :
    ElementsRead S (t :: (targets t ++ trees)) (⟨.rest inner, none, p⟩ :: elements) :=
  cons (drawn_rest hinner.drawn hp) (forall_parts.mpr ⟨trivial, hinner.checked⟩) (fun _ => rfl)
    (hinner.regular.inRest hinner.marked) h

theorem element (hpattern : ReadFrom S t pattern) (h : ElementsRead S trees elements) :
    ElementsRead S (targets t ++ trees) (pattern :: elements) :=
  cons hpattern.drawn hpattern.checked hpattern.undefaulted hpattern.regular h

theorem withDefault {value : SExpr} (hpattern : ReadFrom S t pattern) (hvalue : S.trees value)
    (hsingle : ¬pattern.isRest = true) (h : ElementsRead S trees elements) :
    ElementsRead S (targets t ++ trees) ({ pattern with default := some value } :: elements) :=
  cons (hpattern.drawn.withDefault hvalue)
    ((forall_parts_withDefault value Iff.rfl).mpr hpattern.checked)
    (fun hrest => absurd hrest hsingle) (hpattern.regular.withDefault value) h

theorem restsLast (h : ElementsRead S trees elements)
    (hlast : ∀ element ∈ elements.dropLast, element.isRest = false) : RestsLast elements :=
  ⟨hlast, h.undefaulted⟩

theorem array (h : ElementsRead S trees elements) (hp : S.positions p)
    (hlast : ∀ element ∈ elements.dropLast, element.isRest = false) :
    ReadAs S trees ⟨.array elements, none, p⟩ where
  drawn := ⟨hp, allDrawn_iff.mpr h.drawn, nofun⟩
  checked := forall_parts.mpr ⟨h.restsLast hlast, h.checked⟩
  single := rfl
  regular := (forall_parts.trans (and_iff_right (h.restsLast hlast))).trans h.regular

end ElementsRead

/-! ### Properties -/

namespace PropertiesRead

theorem nil : PropertiesRead S [] ([], none) where
  entries := trivial
  target := trivial
  checked := forall_mem_nil _
  remaining := nofun
  regular := iff_of_true ⟨forall_mem_nil _, forall_mem_nil _⟩ (forall_mem_nil _)

theorem rest (h : ReadAs S [] pattern) : PropertiesRead S [] ([], some pattern) where
  entries := trivial
  target := h.drawn
  checked := h.checked
  remaining := by
    rintro _ ⟨⟩
    exact h.single
  regular := iff_of_true ⟨forall_mem_nil _, h.regular.mpr (forall_mem_nil _)⟩ (forall_mem_nil _)

variable {key : String} {result : List PropertyPattern × Option Pattern}

theorem cons (hdrawn : pattern.Drawn S) (hchecked : ∀ part ∈ pattern.parts, part.Checked)
    (hmarked : pattern.isRest = isMarkedRest t) (hregular : RegularBy pattern.parts (targets t))
    (h : PropertiesRead S trees result) :
    PropertiesRead S (t :: (targets t ++ trees)) (⟨key, pattern⟩ :: result.1, result.2) where
  entries := ⟨hdrawn, h.entries⟩
  target := h.target
  checked := by
    rw [propertyParts, append_assoc]
    exact forall_mem_append.mpr ⟨hchecked, h.checked⟩
  remaining := h.remaining
  regular := by
    have hothers := h.regular
    unfold RegularBy Unmarked at *
    simp only [forall_mem_cons, forall_mem_append, propertyParts, ← hothers, ← hregular, ← hmarked]
    tauto

theorem value (hpattern : ReadFrom S t pattern) (h : PropertiesRead S trees result) :
    PropertiesRead S (t :: (targets t ++ trees)) (⟨key, pattern⟩ :: result.1, result.2) :=
  h.cons hpattern.drawn hpattern.checked hpattern.marked hpattern.regular

theorem withDefault {given : SExpr} (hpattern : ReadFrom S t pattern) (hgiven : S.trees given)
    (h : PropertiesRead S trees result) : PropertiesRead S (t :: (targets t ++ trees))
      (⟨key, { pattern with default := some given }⟩ :: result.1, result.2) :=
  h.cons (hpattern.drawn.withDefault hgiven)
    ((forall_parts_withDefault given Iff.rfl).mpr hpattern.checked) hpattern.marked
    (hpattern.regular.withDefault given)

theorem object (h : PropertiesRead S trees result) (hp : S.positions p) :
    ReadAs S trees ⟨.object result.1 result.2, none, p⟩ where
  drawn := ⟨hp, ⟨h.entries, h.target⟩, nofun⟩
  checked := forall_parts.mpr ⟨h.remaining, h.checked⟩
  single := rfl
  regular := by
    refine forall_parts.trans (Iff.trans ?_ h.regular)
    exact and_congr_left fun _ => and_iff_left h.remaining

end PropertiesRead

/-! ## Reading keeps to the tree -/

theorem readName_drawn {text part : String} (htext : S.texts text)
    (hpart : part = text ∨ restName? text = some part ∨ Text.stripEnd? ":" text = some part)
    (hp : S.positions p) : S.Reads erase (ReadAs S []) (readName part p) (readName part none) := by
  unfold readName
  cases hsplit : splitAscription part with
  | error fault => exact .error hp
  | ok split =>
    obtain ⟨name, ascribed⟩ := split
    exact .ite Iff.rfl (.ok (.name hp (S.binds htext hpart hsplit))) (.error hp)

theorem readSymbol_drawn {text : String} (htext : S.texts text) (hp : S.positions p) :
    S.Reads erase (ReadFrom S (.symbol text p)) (readSymbol text p) (readSymbol text none) := by
  by_cases hskip : text = "_"
  · subst hskip
    have hleaf : ReadAs S [] ⟨.skip, none, p⟩ := readAs_leaf hp rfl trivial rfl trivial trivial
    exact .ok (hleaf.readFrom rfl)
  · simp only [readSymbol, if_neg hskip]
    cases hrest : restName? text with
    | none =>
      refine (readName_drawn htext (.inl rfl) hp).imp fun _ hname => hname.readFrom ?_
      exact congrArg Option.isSome hrest
    | some target =>
      refine .bind (readName_drawn htext (.inr (.inl hrest)) hp) fun inner hname => .ok ?_
      have hparts := hname.regular.mpr (forall_mem_nil _)
      exact {
        drawn := drawn_rest hname.drawn hp
        checked := forall_parts.mpr ⟨trivial, hname.checked⟩
        undefaulted := fun _ => rfl
        marked := (congrArg Option.isSome hrest).symm
        regular := regularBy_nil (forall_parts.mpr ⟨hname.single, hparts⟩) }

theorem readObjectRest_drawn (ht : S.trees t) :
    S.Reads erase (ReadAs S []) (readObjectRest t) (readObjectRest t.erase) := by
  have hp : S.positions t.position := S.position t ht
  cases t with
  | symbol text p =>
    have htext : S.texts text := S.symbol text p ht
    simp only [readObjectRest, erase_symbol]
    cases hrest : restName? text with
    | none => exact readName_drawn htext (.inl rfl) hp
    | some target => exact readName_drawn htext (.inr (.inl hrest)) hp
  | literal | list => exact .error hp

theorem checkRestLast_drawn (hp : S.positions p) (h : ∀ element ∈ elements, element.Drawn S) :
    S.Reads id (fun _ => ∀ element ∈ elements.dropLast, element.isRest = false)
      (checkRestLast p elements) (checkRestLast none (eraseAll elements)) := by
  induction elements with
  | nil => exact .ok (by simp)
  | cons element rest ih =>
    obtain ⟨helement, hrest⟩ := forall_mem_cons.mp h
    have hempty : (eraseAll rest).isEmpty = rest.isEmpty := by cases rest <;> rfl
    simp only [checkRestLast, eraseAll, isRest_erase, hempty]
    split
    · -- the element is blamed, or the whole list if the element has no position
      refine .error ?_
      have hpos := helement.position
      generalize element.position = q at hpos
      cases q with
      | none => exact hp
      | some q => exact hpos
    · next hlast =>
      refine (ih hrest).imp fun _ hothers => ?_
      cases rest with
      | nil => exact by simp
      | cons next rest =>
        rw [dropLast_cons_cons, forall_mem_cons]
        exact ⟨by simpa using hlast, hothers⟩

mutual

theorem read_drawn : (t : SExpr) → S.Opens t →
    S.Reads erase (ReadFrom S t) (read t) (read t.erase)
  | .symbol text p, ht => readSymbol_drawn (ht.symbol text p rfl) ht.position
  | .literal value p, ht => .error ht.position
  | .list [] p, ht => .ok ((ElementsRead.nil.array ht.position (by simp)).readFrom rfl)
  | .list (head :: rest) p, ht => by
    have hp : S.positions p := ht.position
    have hitems : ∀ t ∈ head :: rest, S.trees t := ht.children
    have hrest := (forall_mem_cons.mp hitems).2
    -- arrays with and without a mark differ in the items only
    have harray {x x' : Except SyntaxFault (List Pattern)} {trees : List SExpr}
        (hx : S.Reads eraseAll (ElementsRead S trees) x x') :
        S.Reads erase (ReadAs S trees)
          (x >>= fun elements => checkRestLast p elements >>= fun _ =>
            pure ⟨.array elements, none, p⟩)
          (x' >>= fun elements => checkRestLast none elements >>= fun _ =>
            pure ⟨.array elements, none, none⟩) :=
      .bind hx fun _ helems => .bind (checkRestLast_drawn hp helems.drawn) fun _ hlast =>
        .ok (helems.array hp hlast)
    suffices h : S.Reads erase (ReadAs S (targets (.list (head :: rest) p)))
        (read (.list (head :: rest) p)) (read (SExpr.list (head :: rest) p).erase) from
      h.imp fun _ hread => hread.readFrom rfl
    simp only [erase_list, map_cons, read, targets, symbol?_erase]
    generalize head.symbol? = name
    split
    · exact harray (readElements_drawn rest hrest)
    · exact .ok (ElementsRead.nil.array hp (by simp))
    · exact .bind (readProperties_drawn rest hrest) fun _ hresult => .ok (hresult.object hp)
    · exact .ok (PropertiesRead.nil.object hp)
    · simpa only [map_cons] using harray (readElements_drawn (head :: rest) hitems)

theorem readElements_drawn : (items : List SExpr) → (∀ t ∈ items, S.trees t) →
    S.Reads eraseAll (ElementsRead S (elementTargets items)) (readElements items)
      (readElements (items.map SExpr.erase))
  | [], _ => .ok .nil
  | item :: rest, hitems => by
    obtain ⟨hitem, hrest⟩ := forall_mem_cons.mp hitems
    have hp : S.positions item.position := S.position item hitem
    rw [map_cons]
    unfold readElements elementTargets
    simp only [SExpr.position_erase, isRestMark_erase]
    split
    · match rest, hrest with
      | [], _ => exact .error hp
      | target :: rest, hrest =>
        obtain ⟨htarget, hrest⟩ := forall_mem_cons.mp hrest
        -- what takes the rest is at the position of its mark
        refine .bind (read_drawn target (Supply.opens htarget)) fun inner hinner => ?_
        match rest, hrest with
        | [], _ => exact .ok (.rest hinner hp .nil)
        | [mark], hrest =>
          exact .ite (by rw [isSymbol_erase]) (.error (S.position mark (hrest mark (by simp))))
            (.bind (readElements_drawn [mark] hrest) fun _ h => .ok (.rest hinner hp h))
        | mark :: value :: rest, hrest =>
          exact .ite (by rw [isSymbol_erase]) (.error hp)
            (.bind (readElements_drawn _ hrest) fun _ h => .ok (.rest hinner hp h))
    · refine .bind (read_drawn item (Supply.opens hitem)) fun element helement => ?_
      match rest, hrest with
      | [], _ => exact .ok (.element helement .nil)
      | [mark], hrest =>
        exact .ite (by rw [isSymbol_erase]) (.error (S.position mark (hrest mark (by simp))))
          (.bind (readElements_drawn [mark] hrest) fun _ h => .ok (.element helement h))
      | mark :: value :: rest, hrest =>
        simp only [map_cons, isSymbol_erase, isRest_erase, ← erase_with_default]
        split
        · -- an element that takes the rest must not get a default
          split
          · exact .error hp
          · next hsingle =>
            refine .bind (readElements_drawn rest fun t ht => hrest t (by simp [ht])) fun _ h => ?_
            exact .ok (.withDefault helement (hrest value (by simp)) hsingle h)
        · exact .bind (readElements_drawn _ hrest) fun _ h => .ok (.element helement h)

theorem readProperties_drawn : (items : List SExpr) → (∀ t ∈ items, S.trees t) →
    S.Reads (Prod.map eraseProperties eraseRest) (PropertiesRead S (propertyTargets items))
      (readProperties items) (readProperties (items.map SExpr.erase))
  | [], _ => .ok .nil
  | item :: rest, hitems => by
    obtain ⟨hitem, hrest⟩ := forall_mem_cons.mp hitems
    have hp : S.positions item.position := S.position item hitem
    have hremaining {target : SExpr} (htarget : S.trees target) :
        S.Reads (Prod.map eraseProperties eraseRest) (PropertiesRead S [])
          (do return ([], some (← readObjectRest target)))
          (do return ([], some (← readObjectRest target.erase))) :=
      .bind (readObjectRest_drawn htarget) fun _ htarget => .ok (.rest htarget)
    rw [map_cons]
    unfold readProperties propertyTargets
    simp only [SExpr.position_erase, isRestMark_erase, isMarkedRest_erase]
    split
    · match rest, hrest with
      | [target], hrest => exact hremaining (hrest target (by simp))
      | [], _ | _ :: _ :: _, _ => exact .error hp
    · refine .ite Iff.rfl ?_ ?_
      · match rest with
        | [] => exact hremaining hitem
        | _ :: _ => exact .error hp
      · have hkey := keyOf_alike item
        generalize keyOf item = key, keyOf item.erase = key' at hkey
        cases hkey with
        | error => exact .error hp
        | ok =>
          match rest, hrest with
          | [], _ => exact .error hp
          | target :: rest, hrest =>
            obtain ⟨htarget, hrest⟩ := forall_mem_cons.mp hrest
            refine .bind (read_drawn target (Supply.opens htarget)) fun value hvalue => ?_
            match rest, hrest with
            | [], _ => exact .ok (.value hvalue .nil)
            | [mark], hrest =>
              exact .ite (by rw [isSymbol_erase]) (.error (S.position mark (hrest mark (by simp))))
                (.bind (readProperties_drawn [mark] hrest) fun _ h => .ok (.value hvalue h))
            | mark :: given :: rest, hrest =>
              simp only [map_cons, isSymbol_erase, ← erase_with_default]
              split
              · refine .bind (readProperties_drawn rest fun t ht => hrest t (by simp [ht])) fun _ h => ?_
                exact .ok (.withDefault hvalue (hrest given (by simp)) h)
              · exact .bind (readProperties_drawn _ hrest) fun _ h => .ok (.value hvalue h)

end

theorem defaults_of_read (hT : Hereditary T) (h : read t = .ok pattern)
    (hitems : ∀ c ∈ t.children, T c) : ∀ d ∈ pattern.defaults, T d :=
  Drawn.defaults pattern ((read_drawn t (Supply.opens_ofTrees hT hitems)).answered.of_ok h).drawn

theorem read_ok (h : read t = .ok pattern) : ReadFrom (.ofTrees hereditary_true) t pattern :=
  (read_drawn t (Supply.opens_ofTrees hereditary_true fun _ _ => trivial)).answered.of_ok h

end Pattern

namespace ParamList

variable {S : Supply} {p : Option Position} {t : SExpr} {list : ParamList}

/-- The trees among the parameters that are read as the value of a property or behind a bare rest
mark. The parameters of a map are names. -/
def targets (t : SExpr) : List SExpr :=
  match t.head? with
  | some "hash-map" => []
  | some "empty-map" => []
  | some "empty-array" => []
  | some "vector" => Pattern.elementTargets t.children.tail
  | _ => Pattern.elementTargets t.children

/-- Parameters as they are read from a tree with the given targets. -/
structure ReadAs (S : Supply) (trees : List SExpr) (list : ParamList) : Prop extends
    ElementsRead S trees list.params where
  last : ∀ param ∈ list.params.dropLast, param.isRest = false

theorem keyOf_text {name : SExpr} {key : String} (hname : S.trees name)
    (hkey : ∀ text ∈ name.string?, S.texts text) (h : Pattern.keyOf name = .ok key) :
    ∃ text, S.texts text ∧ (key = text ∨ Text.stripEnd? ":" text = some key) := by
  cases name with
  | symbol text q =>
    refine ⟨text, S.symbol text q hname, ?_⟩
    simp only [Pattern.keyOf] at h
    split at h
    · cases h
    · cases h
      cases Text.stripEnd? ":" text with
      | none => exact .inl rfl
      | some key => exact .inr rfl
  | literal value q =>
    cases value with
    | string text =>
      cases h
      exact ⟨_, hkey _ rfl, .inl rfl⟩
    | _ => cases h
  | list items q => cases h

theorem readStructured_drawn (hp : S.positions p) : (items : List SExpr) →
    (∀ t ∈ items, S.trees t) → (∀ key ∈ SExpr.mapKeys items, S.texts key) →
    S.Reads Pattern.eraseAll
      (fun params => ElementsRead S [] params ∧ ∀ param ∈ params, param.isRest = false)
      (readStructured p items) (readStructured none (items.map SExpr.erase))
  | [], _, _ => .ok ⟨.nil, forall_mem_nil _⟩
  | [_], _, _ => .error hp
  | name :: value :: rest, hitems, hkeys => by
    simp only [forall_mem_cons] at hitems
    obtain ⟨hname, hvalue, hrest⟩ := hitems
    simp only [SExpr.mapKeys, forall_mem_append, Option.mem_toList] at hkeys
    have hq : S.positions name.position := S.position name hname
    have halike := keyOf_alike name
    simp only [map_cons, readStructured, SExpr.position_erase]
    generalize hkey : Pattern.keyOf name = key, Pattern.keyOf name.erase = key' at halike
    cases halike with
    | error => exact .error hq
    | ok =>
      obtain ⟨text, htext, hpart⟩ := keyOf_text hname hkeys.1 hkey
      refine .bind (readName_drawn htext (hpart.imp id .inr) hq) fun param hparam =>
        .bind (readStructured_drawn hp rest hrest hkeys.2) fun _ hothers => .pure ?_ ?_
      · simp only [Pattern.eraseAll, erase_with_default]
      · have hsingle : ¬param.isRest = true := Bool.eq_false_iff.mp hparam.single
        have hfirst : ReadFrom S (.list [] none) param := hparam.readFrom rfl
        exact ⟨.withDefault hfirst hvalue hsingle hothers.1,
          forall_mem_cons.mpr ⟨hparam.single, hothers.2⟩⟩

theorem readPlain_drawn (hp : S.positions p) {items : List SExpr}
    (hitems : ∀ t ∈ items, S.trees t) :
    S.Reads erase (ReadAs S (elementTargets items)) (readPlain p items)
      (readPlain none (items.map SExpr.erase)) :=
  .bind (readElements_drawn items hitems) fun _ hparams =>
    .bind (checkRestLast_drawn hp hparams.drawn) fun _ hlast =>
      .pure (by rw [erase, eraseAll_eq_map]) ⟨hparams, hlast⟩

theorem read_drawn (ht : S.Opens t)
    (hkeys : t.isForm "hash-map" = true → ∀ key ∈ SExpr.mapKeys t.children.tail, S.texts key) :
    S.Reads erase (ReadAs S (targets t)) (read t) (read t.erase) := by
  have hp : S.positions t.position := ht.position
  cases t with
  | symbol | literal => exact .error hp
  | list items p =>
    have hitems : ∀ t ∈ items, S.trees t := ht.children
    have htail : ∀ t ∈ items.tail, S.trees t := fun t ht => hitems t (mem_of_mem_tail ht)
    have hempty (structured : Bool) : ReadAs S [] ⟨[], structured⟩ := ⟨.nil, forall_mem_nil _⟩
    have hhead := head?_erase (.list items p)
    rw [erase_list] at hhead ⊢
    unfold isForm at hkeys
    simp only [read, targets, hhead, ← map_tail, length_map]
    generalize (SExpr.list items p).head? = name at hkeys
    split
    · refine .ite Iff.rfl (.error hp) ?_
      refine .bind (readStructured_drawn hp _ htail (hkeys rfl)) fun _ hparams => .pure ?_ ?_
      · rw [erase, eraseAll_eq_map]
      · exact ⟨hparams.1, fun param h => hparams.2 param (mem_of_mem_dropLast h)⟩
    · exact .ok (hempty true)
    · exact .ok (hempty false)
    · exact readPlain_drawn hp htail
    · simpa only [SExpr.children, SExpr.position] using readPlain_drawn hp hitems

theorem defaults_of_read (hT : Hereditary T) (h : read t = .ok list)
    (hitems : ∀ c ∈ t.children, T c) : ∀ d ∈ list.defaults, T d := by
  have hread := (read_drawn (Supply.opens_ofTrees hT hitems) fun _ _ _ => trivial).answered.of_ok h
  rw [defaults, ← elementDefaults_eq_flatMap]
  exact AllDrawn.defaults list.params (allDrawn_iff.mpr hread.drawn)

theorem read_ok (h : read t = .ok list) : ReadAs (.ofTrees hereditary_true) (targets t) list :=
  (read_drawn (Supply.opens_ofTrees hereditary_true fun _ _ => trivial)
    fun _ _ _ => trivial).answered.of_ok h

end ParamList

/-- What takes the rest in a pattern or a parameter list that was read. A pattern takes it itself if its
tree begins with a rest mark. In a sequence it is the last element and has no default, and in an object
it is a name. It is nowhere else, and not directly inside of another one, if and only if no value of a
property and no target behind a bare mark is written as a symbol that begins with a rest mark. -/
theorem rest_places (t : SExpr) :
    (∀ pattern, Pattern.read t = .ok pattern → pattern.isRest = Pattern.isMarkedRest t ∧
      (∀ part ∈ pattern.parts, part.Checked) ∧
      ((∀ part ∈ pattern.parts, part.Regular) ↔
        ∀ target ∈ Pattern.targets t, Pattern.isMarkedRest target = false)) ∧
    ∀ list, ParamList.read t = .ok list → RestsLast list.params ∧
      (∀ part ∈ elementParts list.params, part.Checked) ∧
      ((∀ part ∈ elementParts list.params, part.Regular) ↔
        ∀ target ∈ ParamList.targets t, Pattern.isMarkedRest target = false) := by
  constructor
  · intro pattern hread
    have h := Pattern.read_ok hread
    exact ⟨h.marked, h.checked, h.regular⟩
  · intro list hread
    have h := ParamList.read_ok hread
    exact ⟨h.restsLast h.last, h.checked, h.regular⟩

/-- A sequence with an object inside and with a rest, as a pattern and as a parameter list. -/
theorem rest_places_sequence :
    let object : SExpr := .list [.symbol "hash-map" none, .symbol "k:" none, .symbol "b" none] none
    let t : SExpr := .list [.symbol "vector" none, object, .symbol "&" none, .symbol "c" none] none
    let b : Pattern := ⟨.identifier "b" none, none, none⟩
    let elements : List Pattern := [⟨.object [⟨"k", b⟩] none, none, none⟩,
      ⟨.rest ⟨.identifier "c" none, none, none⟩, none, none⟩]
    Pattern.read t = .ok ⟨.array elements, none, none⟩ ∧ ParamList.read t = .ok ⟨elements, false⟩ ∧
      Pattern.targets t = [.symbol "b" none, .symbol "c" none] ∧
      (∀ part ∈ Pattern.parts ⟨.array elements, none, none⟩, part.Regular) ∧
      ∀ part ∈ elementParts elements, part.Regular := by
  intro object t b elements
  have hunmarked : ∀ target ∈ Pattern.targets t, Pattern.isMarkedRest target = false := by decide +kernel
  exact ⟨rfl, rfl, rfl, ((rest_places t).1 _ rfl).2.2.mpr hunmarked,
    ((rest_places t).2 ⟨elements, false⟩ rfl).2.2.mpr hunmarked⟩

/-- The value of a property may take the rest, and have a default. -/
theorem property_takes_rest :
    ∃ pattern, Pattern.read (.list [.symbol "hash-map" none, .symbol "a:" none, .symbol "&b" none,
        .symbol "=" none, .symbol "c" none] none) = .ok pattern ∧ ¬∀ part ∈ pattern.parts, part.Regular := by
  refine ⟨_, rfl, fun h => ?_⟩
  have hvalue := (h _ (.head _)).1 _ (.head _)
  cases hvalue

end LispLowering
