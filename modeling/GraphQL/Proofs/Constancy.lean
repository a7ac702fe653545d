/-
  Values without variables.

  A value that is read under the flag "only constants" holds no variable at any depth.  Its
  production has no open alternative for a variable then, and hands the flag on to whatever is read
  within; a text that is broken does not change that, since each node of a parse was read under the
  flag of the slot that it fills (`Node.ReadUnder`).  What is made of such a node, if anything is,
  is a constant.

  The proofs walk the functions that make documents from trees.  `Ensures P` says that whatever is
  made satisfies `P`, and there is one lemma for each way in which these functions look into a node.
-/
import GraphQL.Document.OfTree.Selection
import GraphQL.Proofs.Conformance

namespace GraphQL

/-! ## What is made -/

/-- Whatever is made satisfies a property. -/
def Ensures {α : Type} (P : α → Prop) (result : Build α) : Prop := ∀ a, result = .ok a → P a

namespace Ensures

variable {α β : Type} {P : α → Prop} {Q : β → Prop} {x : Build α}

theorem any : Ensures (fun _ => True) x := fun _ _ => trivial

/-- What is given at once satisfies what it satisfies. -/
theorem pure {a : α} (h : P a) : Ensures P (Pure.pure a) := by
  intro b made
  cases made
  exact h

/-- A property of a result comes from a property of what it is made of. -/
theorem bind {f : α → Build β} (hx : Ensures P x) (hf : ∀ a, P a → Ensures Q (f a)) :
    Ensures Q (x >>= f) := by
  intro b made
  obtain ⟨a, ha, hb⟩ := bind_eq_ok_iff.mp made
  exact hf a (hx a ha) b hb

/-- A property of a function of a result comes from a property of the result. -/
theorem map {f : α → β} (hx : Ensures P x) (hf : ∀ a, P a → Q (f a)) : Ensures Q (x.map f) := by
  intro b made
  cases found : x with
  | error e =>
    rw [found] at made
    cases made
  | ok a =>
    rw [found] at made
    cases made
    exact hf a (hx a found)

/-- The same, for a function whose result is there. -/
theorem mapSome {f : α → β} (hx : Ensures P x) (hf : ∀ a, P a → Q (f a)) :
    Ensures (fun o => ∀ b ∈ o, Q b) (x.map fun a => Option.some (f a)) := by
  refine hx.map fun a ha b same => ?_
  cases same
  exact hf a ha

theorem some (hx : Ensures P x) : Ensures (fun o => ∀ a ∈ o, P a) (x.map Option.some) :=
  hx.mapSome fun _ => id

/-- All elements of a list that is made satisfy what each of the makers ensures. -/
theorem mapM {f : β → Build α} {bs : List β} (hf : ∀ b ∈ bs, Ensures P (f b)) :
    Ensures (fun as => ∀ a ∈ as, P a) (bs.mapM f) := by
  induction bs with
  | nil => exact .pure (fun _ => nofun)
  | cons b rest ih =>
    have others := ih fun b hb => hf b (List.mem_cons_of_mem _ hb)
    rw [List.mapM_cons]
    refine (hf b List.mem_cons_self).bind fun a ha => others.bind fun as has => .pure ?_
    intro a' ha'
    rcases List.mem_cons.mp ha' with rfl | ha'
    · exact ha
    · exact has a' ha'

/-- Nothing is made of what is lacking. -/
theorem lack {n : Node} {gap : Gap} : Ensures (fun o => ∀ a ∈ o, P a) (n.lack gap) := by
  intro o made a ha
  unfold Node.lack at made
  split at made
  · cases made
    cases ha
  · cases made

end Ensures

/-- What is in an option or else a default. -/
theorem getD_of_forall_mem {α : Type} {P : α → Prop} {o : Option α} {a : α}
    (h : ∀ b ∈ o, P b) (default : P a) : P (o.getD a) := by
  cases o with
  | none => exact default
  | some b => exact h b rfl

/-- What holds through two ways of being lacking holds through one. -/
theorem forall_mem_join {α : Type} {P : α → Prop} {o : Option (Option α)}
    (h : ∀ v ∈ o, ∀ a ∈ v, P a) : ∀ a ∈ o.join, P a := by
  cases o with
  | none => exact fun _ => nofun
  | some v => exact h v rfl

/-! ## Looking into nodes -/

namespace Ensures

variable {α : Type} {P : α → Prop} {n : Node} {r : Rule}

/-- What is made of a first child satisfies what is ensured for each child under the rule. -/
theorem withFirst {f : (c : Node) → c ∈ n.children → Build α}
    (hf : ∀ c hc, c ∈ n.nodes r → Ensures P (f c hc)) :
    Ensures (fun o => ∀ a ∈ o, P a) (n.withFirst r f) := by
  unfold Node.withFirst
  split
  · exact .pure (fun _ => nofun)
  · rename_i c rest held
    exact (hf c _ (held ▸ List.mem_cons_self)).some

/-- What is made of a required child satisfies what is ensured for each child under the rule. -/
theorem withRequired {f : (c : Node) → c ∈ n.children → Build α}
    (hf : ∀ c hc, c ∈ n.nodes r → Ensures P (f c hc)) :
    Ensures (fun o => ∀ a ∈ o, P a) (n.withRequired r f) := by
  unfold Node.withRequired
  split
  · exact .lack
  · rename_i c rest held
    exact (hf c _ (held ▸ List.mem_cons_self)).some

/-- All that is made of the children under a rule satisfies what is ensured for each. -/
theorem withEach {f : (c : Node) → c ∈ n.children → Build α}
    (hf : ∀ c hc, c ∈ n.nodes r → Ensures P (f c hc)) :
    Ensures (fun as => ∀ a ∈ as, P a) (n.withEach r f) :=
  .mapM fun c _ => hf c.val _ c.property

/-- And so does all that is there, where some may be lacking. -/
theorem withPresent {f : (c : Node) → c ∈ n.children → Build (Option α)}
    (hf : ∀ c hc, c ∈ n.nodes r → Ensures (fun o => ∀ a ∈ o, P a) (f c hc)) :
    Ensures (fun as => ∀ a ∈ as, P a) (n.withPresent r f) := by
  refine (withEach hf).map fun found each a ha => ?_
  obtain ⟨o, ho, same⟩ := List.mem_filterMap.mp ha
  exact each o ho a same

/-- What is made of a choice is made of a child. -/
theorem withChosen {alternatives : List Label}
    {f : (c : Node) → c ∈ n.children → Option (Build (Option α))}
    (hf : ∀ c hc, ∀ result ∈ f c hc, Ensures (fun o => ∀ a ∈ o, P a) result) :
    Ensures (fun o => ∀ a ∈ o, P a) (n.withChosen alternatives f) := by
  unfold Node.withChosen
  split
  · exact .lack
  · rename_i c rest held
    split
    · rename_i result made
      exact hf c _ result made
    · intro o made
      cases made

/-- The elements of a list that is made of an optional child satisfy what is ensured for that
    child. -/
theorem listWithin {f : Node → Build (List α)}
    (hf : ∀ c ∈ n.nodes r, Ensures (fun as => ∀ a ∈ as, P a) (f c)) :
    Ensures (fun as => ∀ a ∈ as, P a) (GraphQL.listWithin n r f) := by
  refine (withFirst fun c _ => hf c).bind fun o ho => .pure ?_
  cases o with
  | none => exact fun _ => nofun
  | some as => exact ho as rfl

end Ensures

/-- A node of a rule of the standard grammar that was read under a flag. -/
structure ReadAs (r : Rule) (constant : Bool) (n : Node) : Prop where
  rule : n.rule = r
  read : n.ReadUnder Standard.productions constant

/-- What a production calls under one flag only is read under that flag. -/
theorem flag_eq_true {r q : Rule} {constant flag : Bool}
    (never : .call q false ∉ (Standard.production r).slots constant)
    (slot : .call q flag ∈ (Standard.production r).slots constant) : flag = true := by
  cases flag with
  | true => rfl
  | false => exact absurd slot never

namespace ReadAs

variable {α : Type} {P : α → Prop} {r q : Rule} {constant : Bool} {n c : Node}

/-- A child was read in a place where the production calls its rule, under the flag of that
    place. -/
theorem exists_slot (h : ReadAs r constant n) (hc : c ∈ n.children) :
    ∃ flag, .call c.rule flag ∈ (Standard.production r).slots constant ∧
      ReadAs c.rule flag c := by
  obtain ⟨flag, slot, read⟩ := h.read.exists_slot hc
  rw [h.rule, Standard.productions, RuleTable.get_ofFn] at slot
  exact ⟨flag, slot, rfl, read⟩

/-- The same, for a child under a given rule. -/
theorem exists_slot_of_mem_nodes (h : ReadAs r constant n) (hc : c ∈ n.nodes q) :
    ∃ flag, .call q flag ∈ (Standard.production r).slots constant ∧ ReadAs q flag c := by
  have rule : c.rule = q := h.read.conforms.rule_of_mem_nodes hc
  have found := h.exists_slot (Node.mem_children_of_mem_nodes hc)
  rwa [rule] at found

/-- What is made of the first child satisfies a property if each place that calls its rule ensures
    it. -/
theorem withFirst (h : ReadAs r constant n) {f : (c : Node) → c ∈ n.children → Build α}
    (hf : ∀ c hc flag, .call q flag ∈ (Standard.production r).slots constant →
      ReadAs q flag c → Ensures P (f c hc)) :
    Ensures (fun o => ∀ a ∈ o, P a) (n.withFirst q f) := by
  refine .withFirst fun c hc held => ?_
  obtain ⟨flag, slot, read⟩ := h.exists_slot_of_mem_nodes held
  exact hf c hc flag slot read

/-- The same, for a required child. -/
theorem withRequired (h : ReadAs r constant n) {f : (c : Node) → c ∈ n.children → Build α}
    (hf : ∀ c hc flag, .call q flag ∈ (Standard.production r).slots constant →
      ReadAs q flag c → Ensures P (f c hc)) :
    Ensures (fun o => ∀ a ∈ o, P a) (n.withRequired q f) := by
  refine .withRequired fun c hc held => ?_
  obtain ⟨flag, slot, read⟩ := h.exists_slot_of_mem_nodes held
  exact hf c hc flag slot read

/-- The same, for each child. -/
theorem withEach (h : ReadAs r constant n) {f : (c : Node) → c ∈ n.children → Build α}
    (hf : ∀ c hc flag, .call q flag ∈ (Standard.production r).slots constant →
      ReadAs q flag c → Ensures P (f c hc)) :
    Ensures (fun as => ∀ a ∈ as, P a) (n.withEach q f) := by
  refine .withEach fun c hc held => ?_
  obtain ⟨flag, slot, read⟩ := h.exists_slot_of_mem_nodes held
  exact hf c hc flag slot read

/-- The same, for each child of which something is made. -/
theorem withPresent (h : ReadAs r constant n)
    {f : (c : Node) → c ∈ n.children → Build (Option α)}
    (hf : ∀ c hc flag, .call q flag ∈ (Standard.production r).slots constant →
      ReadAs q flag c → Ensures (fun o => ∀ a ∈ o, P a) (f c hc)) :
    Ensures (fun as => ∀ a ∈ as, P a) (n.withPresent q f) := by
  refine .withPresent fun c hc held => ?_
  obtain ⟨flag, slot, read⟩ := h.exists_slot_of_mem_nodes held
  exact hf c hc flag slot read

/-- The same, for a chosen child, whichever rule it is of. -/
theorem withChosen (h : ReadAs r constant n) {alternatives : List Label}
    {f : (c : Node) → c ∈ n.children → Option (Build (Option α))}
    (hf : ∀ c hc flag, .call c.rule flag ∈ (Standard.production r).slots constant →
      ReadAs c.rule flag c → ∀ result, f c hc = some result →
        Ensures (fun o => ∀ a ∈ o, P a) result) :
    Ensures (fun o => ∀ a ∈ o, P a) (n.withChosen alternatives f) := by
  refine .withChosen fun c hc result made => ?_
  obtain ⟨flag, slot, read⟩ := h.exists_slot hc
  exact hf c hc flag slot read result made

/-- The same, for the elements of a list that is made of an optional child. -/
theorem listWithin (h : ReadAs r constant n) {f : Node → Build (List α)}
    (hf : ∀ c flag, .call q flag ∈ (Standard.production r).slots constant →
      ReadAs q flag c → Ensures (fun as => ∀ a ∈ as, P a) (f c)) :
    Ensures (fun as => ∀ a ∈ as, P a) (GraphQL.listWithin n q f) := by
  refine .listWithin fun c held => ?_
  obtain ⟨flag, slot, read⟩ := h.exists_slot_of_mem_nodes held
  exact hf c flag slot read

end ReadAs

/-! ## Constants -/

/-- Whether all of some values are constants. -/
def AllConst (vs : List Value) : Prop := ∀ v ∈ vs, v.isConst = true

/-- Values in a row are constant if each of them is. -/
theorem Value.allConst_of_forall {vs : List Value} (h : AllConst vs) :
    Value.allConst vs = true := by
  induction vs with
  | nil => rfl
  | cons v rest ih =>
    obtain ⟨first, others⟩ := List.forall_mem_cons.mp h
    exact Bool.and_eq_true_iff.mpr ⟨first, ih others⟩

/-- Object fields in a row are constant if each of them is. -/
theorem ObjectField.allConst_of_forall {fs : List ObjectField}
    (h : ∀ f ∈ fs, f.isConst = true) : ObjectField.allConst fs = true := by
  induction fs with
  | nil => rfl
  | cons f rest ih =>
    obtain ⟨first, others⟩ := List.forall_mem_cons.mp h
    exact Bool.and_eq_true_iff.mpr ⟨first, ih others⟩

/-- A literal holds no variable. -/
theorem Value.isConst_of_literal? {n : Node} {v : Value} (h : Value.literal? n = some v) :
    v.isConst = true := by
  unfold Value.literal? at h
  split at h
  · cases h
    rfl
  · split at h
    · cases h
      rfl
    · obtain ⟨t, -, rfl⟩ := Option.map_eq_some_iff.mp h
      rfl

/-- A boolean is constant. -/
theorem Value.booleanOfNode_const (n : Node) :
    Ensures (fun o => ∀ v ∈ o, Value.isConst v = true) (Value.booleanOfNode n) := by
  have truth : ∀ b, ∀ v ∈ some (Value.boolean b n.span), v.isConst = true := by
    intro b v same
    cases same
    rfl
  unfold Value.booleanOfNode
  split
  · exact .pure (truth true)
  · split
    · exact .pure (truth false)
    · exact .lack

theorem Value.nullOfNode_const (n : Node) :
    Ensures (fun v => Value.isConst v = true) (Value.nullOfNode n) :=
  Ensures.any.bind fun _ _ => .pure rfl

/-- An enumeration value is constant. -/
theorem Value.enumOfNode_const (n : Node) :
    Ensures (fun o => ∀ v ∈ o, Value.isConst v = true) (Value.enumOfNode n) := by
  refine Ensures.any.bind fun token _ => .pure fun v hv => ?_
  obtain ⟨t, -, rfl⟩ := Option.map_eq_some_iff.mp hv
  rfl

mutual

/-- A value that is read where only constants may stand is one. -/
theorem Value.ofNode_const (n : Node) (h : ReadAs .value true n) :
    Ensures (fun o => ∀ v ∈ o, Value.isConst v = true) (Value.ofNode n) := by
  rw [Value.ofNode]
  split
  · rename_i v literal
    refine .pure fun w same => ?_
    cases same
    exact Value.isConst_of_literal? literal
  · refine h.withChosen fun c hc flag slot read result made => ?_
    split at made
    · -- no variable is open under the flag
      rename_i rule
      rw [rule] at slot
      exact absurd slot (by cases flag <;> decide)
    · cases made
      exact Value.booleanOfNode_const c
    · cases made
      exact (Value.nullOfNode_const c).some
    · cases made
      exact Value.enumOfNode_const c
    · rename_i rule
      rw [rule] at slot read
      obtain rfl := flag_eq_true (by decide) slot
      cases made
      exact (Value.listOfNode_const c read).some
    · rename_i rule
      rw [rule] at slot read
      obtain rfl := flag_eq_true (by decide) slot
      cases made
      exact (Value.objectOfNode_const c read).some
    · cases made
termination_by sizeOf n
decreasing_by all_goals exact Node.sizeOf_lt_of_mem_children ‹_›

/-- A list that is read as a constant has constant values: the production hands the flag down. -/
theorem Value.listOfNode_const (n : Node) (h : ReadAs .listValue true n) :
    Ensures (fun v => Value.isConst v = true) (Value.listOfNode n) := by
  rw [Value.listOfNode]
  refine Ensures.bind (h.withPresent fun c hc flag slot read => ?_) fun values each =>
    .pure (Value.allConst_of_forall each)
  obtain rfl := flag_eq_true (by decide) slot
  exact Value.ofNode_const c read
termination_by sizeOf n
decreasing_by exact Node.sizeOf_lt_of_mem_children ‹_›

/-- And so have the fields of an object. -/
theorem Value.objectOfNode_const (n : Node) (h : ReadAs .objectValue true n) :
    Ensures (fun v => Value.isConst v = true) (Value.objectOfNode n) := by
  rw [Value.objectOfNode]
  refine Ensures.bind (h.withEach fun c hc flag slot read => ?_) fun fields each =>
    .pure (ObjectField.allConst_of_forall each)
  obtain rfl := flag_eq_true (by decide) slot
  exact ObjectField.ofNode_const c read
termination_by sizeOf n
decreasing_by exact Node.sizeOf_lt_of_mem_children ‹_›

/-- A field that is read as a constant has a constant value. -/
theorem ObjectField.ofNode_const (n : Node) (h : ReadAs .objectField true n) :
    Ensures (fun f => ObjectField.isConst f = true) (ObjectField.ofNode n) := by
  rw [ObjectField.ofNode]
  have value : Ensures (fun o => ∀ v ∈ o, ∀ w ∈ v, Value.isConst w = true)
      (n.withRequired .value fun c _ => Value.ofNode c) := by
    refine h.withRequired fun c hc flag slot read => ?_
    obtain rfl := flag_eq_true (by decide) slot
    exact Value.ofNode_const c read
  exact Ensures.any.bind fun name _ => value.bind fun o ho =>
    .pure (getD_of_forall_mem (forall_mem_join ho) rfl)
termination_by sizeOf n
decreasing_by exact Node.sizeOf_lt_of_mem_children ‹_›

end

/-- The value within a node is a constant, if only constants are read there. -/
theorem Value.within_const {r : Rule} {constant : Bool} {n : Node} (h : ReadAs r constant n)
    (never : .call .value false ∉ (Standard.production r).slots constant) :
    Ensures (fun o => ∀ v ∈ o, Value.isConst v = true) (Value.within n) := by
  refine Ensures.bind (h.withRequired fun c hc flag slot read => ?_) fun o ho =>
    .pure (forall_mem_join ho)
  obtain rfl := flag_eq_true never slot
  exact Value.ofNode_const c read

/-! ## Directives -/

/-- The values of the arguments of a directive. -/
def Directive.values (d : Directive) : List Value := d.arguments.map Argument.value

section Directives

variable {n : Node}

/-- An argument that is read as a constant has a constant value. -/
theorem Argument.ofNode_const (h : ReadAs .argument true n) :
    Ensures (fun a => Value.isConst a.value = true) (Argument.ofNode n) := by
  have value := Value.within_const h (by decide)
  exact Ensures.any.bind fun _ _ => value.bind fun o ho => .pure (getD_of_forall_mem ho rfl)

/-- And so have all the arguments of a list. -/
theorem Argument.allWithin_const (h : ReadAs .arguments true n) :
    Ensures (fun as => ∀ a ∈ as, Value.isConst a.value = true) (Argument.allWithin n) := by
  refine h.withEach fun c hc flag slot read => ?_
  obtain rfl := flag_eq_true (by decide) slot
  exact Argument.ofNode_const read

/-- A directive that is read as a constant has constant arguments. -/
theorem Directive.ofNode_const (h : ReadAs .directive true n) :
    Ensures (fun d => AllConst (Directive.values d)) (Directive.ofNode n) := by
  have arguments : Ensures (fun as => ∀ a ∈ as, Value.isConst a.value = true)
      (listWithin n .arguments Argument.allWithin) := by
    refine h.listWithin fun c flag slot read => ?_
    obtain rfl := flag_eq_true (by decide) slot
    exact Argument.allWithin_const read
  refine Ensures.any.bind fun _ _ => arguments.bind fun as has => .pure fun v hv => ?_
  obtain ⟨a, ha, rfl⟩ := List.mem_map.mp hv
  exact has a ha

/-- The directives that are attached to what a node stands for have constant arguments, if only
    constants are read in them there. -/
theorem Directive.attached_const {r : Rule} {constant : Bool} (h : ReadAs r constant n)
    (never : .call .directives false ∉ (Standard.production r).slots constant) :
    Ensures (fun ds => ∀ d ∈ ds, AllConst (Directive.values d)) (Directive.attached n) := by
  refine h.listWithin fun c flag slot read => ?_
  obtain rfl := flag_eq_true never slot
  refine read.withEach fun c hc flag slot read => ?_
  obtain rfl := flag_eq_true (by decide) slot
  exact Directive.ofNode_const read

end Directives

end GraphQL
