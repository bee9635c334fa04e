import BindlessHlsl.Pipeline.Description
import BindlessHlsl.Proofs.LineStructure
import BindlessHlsl.Proofs.TableOrder

/-!
The user constants of a shader are listed twice: the struct in the generated text has its members in
the order of declaration, and the description of the pipeline has them in table order. The two lists
agree, and with them the offsets that a reader of the description sums up, exactly if the constants
are declared in table order (`Shader.DescribesConstants`).
-/

namespace BindlessHlsl

open Utf8

/-! ## Two orders of the user constants -/

theorem Resource.sorted_pair {a b : Resource} (h : ¬b.InOrder a) : sorted [b, a] = [a, b] := by
  have hle : (b.compare a).isLE = false := by simpa [← isLE_compare] using h
  simp [sorted, List.mergeSort, hle]

/-- User constants stay as they are declared when slots are given out. -/
theorem Resource.filter_withSlots {n : Nat} {resources : List Resource}
    (h : ∀ r ∈ resources, r.index = none) :
    (withSlots n resources).filter isConstants = resources.filter isConstants := by
  fun_induction withSlots n resources with
  | case1 => rfl
  | case2 n r rest hc ih =>
    obtain ⟨hr, hrest⟩ := List.forall_mem_cons.1 h
    have hself : { r with index := none } = r := unslotted_eq_self hr
    rw [hself, List.filter_cons_of_pos hc, List.filter_cons_of_pos hc, ih hrest]
  | case3 n r rest hc ih =>
    rw [List.filter_cons_of_neg hc, ← ih (List.forall_mem_cons.1 h).2]
    exact List.filter_cons_of_neg hc

namespace Declarations

variable {d : Declarations}

theorem map_fst_backed (resources : List Resource) :
    (d.backed resources).map Prod.fst =
      resources.filter fun r => r.isConstants && (d.elementStruct? r).isSome := by
  unfold backed
  induction resources with
  | nil => rfl
  | cons r rest ih =>
    cases hc : r.isConstants <;> cases hs : d.elementStruct? r <;> simp [hc, hs, ih]

/-- A user constant has one struct, so that the resources fix the list. -/
theorem backed_eq_iff {as bs : List Resource} :
    d.backed as = d.backed bs ↔ (d.backed as).map Prod.fst = (d.backed bs).map Prod.fst := by
  have hfixed : ∀ resources,
      d.backed resources = d.backed ((d.backed resources).map Prod.fst) := by
    intro resources
    rw [map_fst_backed]
    unfold backed
    induction resources with
    | nil => rfl
    | cons r rest ih =>
      cases hc : r.isConstants <;> cases hs : d.elementStruct? r <;> simp [hc, hs, ih]
  refine ⟨congrArg _, fun h => ?_⟩
  rw [hfixed as, h, ← hfixed bs]

theorem pairwise_backed_sorted (resources : List Resource) :
    (d.backed (Resource.sorted resources)).Pairwise fun a b => a.1.InOrder b.1 := by
  rw [← List.pairwise_map (f := Prod.fst), map_fst_backed]
  exact (Resource.pairwise_sorted resources).filter _

/-- Table order is the order of declaration exactly for user constants declared in table order. -/
theorem backed_sorted_eq_iff (resources : List Resource) :
    d.backed (Resource.sorted resources) = d.backed resources ↔
      (d.backed resources).Pairwise fun a b => a.1.InOrder b.1 := by
  refine ⟨fun h => h ▸ pairwise_backed_sorted resources, fun h => ?_⟩
  rw [← List.pairwise_map (f := Prod.fst), map_fst_backed] at h
  rw [backed_eq_iff, map_fst_backed, map_fst_backed]
  exact filter_mergeSort Resource.isLE_compare_trans Resource.isLE_compare_total
    (h.imp Resource.isLE_compare.2)

theorem backed_sorted_perm (resources : List Resource) :
    (d.backed (Resource.sorted resources)).Perm (d.backed resources) :=
  ((List.mergeSort_perm ..).filter _).filterMap _

theorem backed_table {resources : List Resource} (h : ∀ r ∈ resources, r.index = none) :
    d.backed (Resource.table resources) = d.backed (Resource.sorted resources) := by
  have hsorted : ∀ r ∈ Resource.sorted resources, r.index = none := fun r hr =>
    h r (List.mem_mergeSort.1 hr)
  rw [backed, Resource.table, Resource.filter_withSlots hsorted, backed]

end Declarations

/-! ## The struct of the user constants -/

/-- The struct of the user constants in a generated text, with a member for each of them. -/
def Shader.constantsText (members : List (Resource × Struct)) : String :=
  "struct __USER_CONSTANTS_GENERATED\n\x7b\n" ++
    String.join (members.map fun m => "    " ++ m.2.name ++ " USER_" ++ m.1.name ++ ";\n") ++
    "\x7d;\n"

namespace Preamble

variable {p : Preamble} {members : List (Resource × Struct)}

theorem constantsLines_eq (hf : p.constants.fields = members.map fun m => ⟨m.2.name, m.1.name⟩)
    (hne : members ≠ []) :
    String.join (p.constantsLines.map fun line => line ++ "\n") = Shader.constantsText members := by
  have hfields : ¬p.constants.fields.isEmpty = true := by simpa [hf] using hne
  rw [constantsLines, if_neg hfields, hf, structLines]
  simp only [List.map_append, List.map_map, String.join_append]
  congr 2
  refine congrArg String.join (List.map_congr_left fun m _ => ?_)
  simp [String.append_assoc]

theorem exists_text_eq (hf : p.constants.fields = members.map fun m => ⟨m.2.name, m.1.name⟩)
    (hne : members ≠ []) (hr : p.resources ≠ []) :
    ∃ front back, p.text = front ++ Shader.constantsText members ++ back := by
  have hsome : ¬(p.resources.isEmpty && p.samplers.isEmpty) = true := by simp [hr]
  refine ⟨String.join (p.copiedLines.map fun line => line ++ "\n"), ?_⟩
  rw [text, if_neg hsome, ← constantsLines_eq hf hne, lines]
  simp only [List.map_append, String.join_append, String.append_assoc]
  exact ⟨_, rfl⟩

end Preamble

/-! ## The constants of a description -/

/-- What a description says about user constants. -/
def ConstantsDescription.ofMember (m : Resource × Struct) : ConstantsDescription :=
  ⟨m.1.name, m.2.name, m.2.size?.getD 0⟩

theorem ConstantsDescription.ofResource_eq_ok {r : Resource} {s : Struct}
    (h : s.size?.isSome) : ofResource r s = .ok (ofMember (r, s)) := by
  obtain ⟨size, hs⟩ := Option.isSome_iff_exists.1 h
  rw [ofResource, ofMember, hs]
  rfl

namespace Declarations

variable {d moved : Declarations} {edits : EditList}

theorem elementStruct?_moved (h : moved.structs = d.structs.map (Shader.moveStruct edits))
    (r : Resource) :
    moved.elementStruct? r = (d.elementStruct? r).map (Shader.moveStruct edits) := by
  unfold elementStruct?
  cases r.element with
  | none => rfl
  | some name =>
    simp only [Option.bind_some, struct?, h, List.find?_map]
    rfl

theorem backed_moved (h : moved.structs = d.structs.map (Shader.moveStruct edits))
    (resources : List Resource) :
    moved.backed resources =
      (d.backed resources).map fun m => (m.1, Shader.moveStruct edits m.2) := by
  simp [backed, elementStruct?_moved h, List.map_filterMap, Function.comp_def]

end Declarations

/-- Constants whose sizes are known can be described, wherever their structs have moved. -/
theorem PipelineDescription.exists_ofShader {shader : Shader} {edits : EditList}
    {members : List (Resource × Struct)}
    (h : constantsOf shader = members.map fun m => (m.1, Shader.moveStruct edits m.2))
    (hsized : ∀ m ∈ members, m.2.size?.isSome) (file : String) :
    ∃ description, ofShader file shader = .ok description ∧
      description.constants = members.map .ofMember := by
  have hm : (constantsOf shader).mapM (fun c => ConstantsDescription.ofResource c.1 c.2) =
      .ok (members.map .ofMember) := by
    rw [h, List.mapM_map]
    clear h
    induction members with
    | nil => rfl
    | cons m rest ih =>
      obtain ⟨hs, hrest⟩ := List.forall_mem_cons.1 hsized
      rw [List.mapM_cons, ih hrest, Function.comp_apply,
        ConstantsDescription.ofResource_eq_ok (s := Shader.moveStruct edits m.2) hs]
      rfl
  simp only [ofShader, hm, bind, Except.bind]
  exact ⟨_, rfl, rfl⟩

namespace Shader

/-- Where a part starts if the parts in front of it are laid out one behind the other. -/
def startOf (sizes : List UInt32) (k : Nat) : Nat := Word.total (sizes.take k)

/-- The members of the struct of user constants in a generated text, the same members as they are
described, and when the two come to the same. -/
structure DescribesConstants (output : String) (members described : List (Resource × Struct))
    (constants : List ConstantsDescription) : Prop where
  struct_text : members ≠ [] → ∃ front back, output = front ++ constantsText members ++ back
  constants_eq : constants = described.map .ofMember
  sized : ∀ m ∈ members, m.2.size?.isSome
  perm : described.Perm members
  ordered : described.Pairwise fun a b => a.1.InOrder b.1
  agree_iff : (described = members ∧ ∀ k, startOf (constants.map ConstantsDescription.size) k =
      startOf (members.map fun m => m.2.size?.getD 0) k) ↔
    members.Pairwise fun a b => a.1.InOrder b.1

variable {includes : Includes} {file source : String} {d : Declarations} {shader : Shader}

theorem exists_description (hd : Declarations.ofRoot includes file source = .ok d)
    (h : generate file source d = .ok shader) :
    ∃ description, PipelineDescription.ofShader file shader = .ok description ∧
      description.constants = (d.backed (Resource.sorted d.resources)).map .ofMember := by
  obtain ⟨p, hc, hres, _, _, _, hshader⟩ := generate_eq_ok h
  have hconstants : PipelineDescription.constantsOf shader =
      (d.backed (Resource.sorted d.resources)).map
        fun m => (m.1, moveStruct (p.edits source d.functions) m.2) := by
    rw [← Declarations.backed_table fun r hr => Declarations.index_eq_none hd hr, ← hres, hshader]
    exact Declarations.backed_moved rfl p.resources
  refine PipelineDescription.exists_ofShader hconstants (fun m hm => ?_) file
  exact (UserConstants.collects_of_ofDeclarations hc).sized m
    ((Declarations.backed_sorted_perm _).mem_iff.1 hm)

theorem exists_output_eq (hd : Declarations.ofRoot includes file source = .ok d)
    (h : generate file source d = .ok shader) (hne : d.backed d.resources ≠ []) :
    ∃ front back, shader.output = front ++ constantsText (d.backed d.resources) ++ back := by
  obtain ⟨p, hc, hres, _, _, ho, _⟩ := generate_eq_ok h
  have hr : p.resources ≠ [] := by
    intro he
    have hnone : d.resources = [] := by
      rw [← List.length_eq_zero_iff, ← Resource.length_table, ← hres, he, List.length_nil]
    exact hne (by rw [hnone]; rfl)
  obtain ⟨front, back, ht⟩ := Preamble.exists_text_eq
    (UserConstants.collects_of_ofDeclarations hc).fields hne hr
  rw [output_eq hd ho, ht, String.append_assoc]
  exact ⟨front, _, rfl⟩

theorem describesConstants_ofSource (h : ofSource includes file source = .ok shader) :
    ∃ d description described, Declarations.ofRoot includes file source = .ok d ∧
      PipelineDescription.ofShader file shader = .ok description ∧
      DescribesConstants shader.output (d.backed d.resources) described description.constants := by
  obtain ⟨d, hd, hgen⟩ := ofSource_eq_ok h
  obtain ⟨p, hc, _⟩ := generate_eq_ok hgen
  obtain ⟨description, hdescription, hconstants⟩ := exists_description hd hgen
  refine ⟨d, description, d.backed (Resource.sorted d.resources), hd, hdescription, ?_⟩
  exact {
    struct_text := exists_output_eq hd hgen
    constants_eq := hconstants
    sized := (UserConstants.collects_of_ofDeclarations hc).sized
    perm := Declarations.backed_sorted_perm d.resources
    ordered := Declarations.pairwise_backed_sorted d.resources
    agree_iff := by
      rw [← Declarations.backed_sorted_eq_iff, and_iff_left_iff_imp]
      intro heq k
      rw [hconstants, heq, List.map_map]
      rfl }

theorem exists_describesConstants :
    let source := "#pragma bindgroup \"g\"\n" ++
      "struct A \x7b float4 x; \x7d;\nstruct B \x7b float y; \x7d;\n" ++
      "[constants] ConstantBuffer<A> b;\n[constants] ConstantBuffer<B> c;\n" ++
      "[constants] [bindgroup(Group=\"g\")] ConstantBuffer<A> a;\nTexture2D t;\n"
    ∃ shader d description described, ofSource (.ofFiles []) "f" source = .ok shader ∧
      Declarations.ofRoot (.ofFiles []) "f" source = .ok d ∧
      PipelineDescription.ofShader "f" shader = .ok description ∧
      DescribesConstants shader.output (d.backed d.resources) described description.constants ∧
      described = d.backed d.resources ∧ described.length = 3 := by
  intro source
  have hplan : planned (.ofFiles []) "f" source = .ok (some ⟨.combined, 4, 36⟩) := by
    decide +kernel
  have hordered : ∃ d ∈ (Declarations.ofRoot (.ofFiles []) "f" source).toOption,
      (d.backed d.resources).length = 3 ∧
      (d.backed d.resources).Pairwise fun a b => a.1.InOrder b.1 := by
    decide +kernel
  obtain ⟨shader, h⟩ := exists_ofSource hplan
  obtain ⟨d, description, described, hd, hdescription, hdescribes⟩ := describesConstants_ofSource h
  obtain ⟨_, hd', hlength, hpairwise⟩ := hordered
  rw [hd] at hd'
  cases hd'
  have hagree := (hdescribes.agree_iff.2 hpairwise).1
  exact ⟨shader, d, description, described, h, hd, hdescription, hdescribes, hagree,
    hagree ▸ hlength⟩

/-- A shader that declares `b` before `a`. Its struct of user constants starts with `b` and its
description with `a`, so that the description puts `b` at 4 and the shader reads it at 0. -/
theorem constants_out_of_order :
    let source := "struct A \x7b float4 x; \x7d;\nstruct B \x7b float y; \x7d;\n" ++
      "[constants] ConstantBuffer<A> b;\n[constants] ConstantBuffer<B> a;\n"
    ∃ shader description, ofSource (.ofFiles []) "f.hlsl" source = .ok shader ∧
      PipelineDescription.ofShader "f.hlsl" shader = .ok description ∧
      description.constants = [⟨"a", "B", 4⟩, ⟨"b", "A", 16⟩] ∧
      ∃ front back, shader.output = front ++ ("struct __USER_CONSTANTS_GENERATED\n\x7b\n" ++
        "    A USER_b;\n    B USER_a;\n\x7d;\n") ++ back := by
  intro source
  have hplan : planned (.ofFiles []) "f.hlsl" source = .ok (some ⟨.combined, 0, 20⟩) := by
    decide +kernel
  obtain ⟨a, b, horder, d, hd, hresources, hne, hdescribed, htext⟩ : ∃ a b : Resource,
      ¬b.InOrder a ∧
      ∃ d ∈ (Declarations.ofRoot (.ofFiles []) "f.hlsl" source).toOption,
        d.resources = [b, a] ∧ d.backed d.resources ≠ [] ∧
        (d.backed [a, b]).map ConstantsDescription.ofMember =
          [⟨"a", "B", 4⟩, ⟨"b", "A", 16⟩] ∧
        constantsText (d.backed [b, a]) = "struct __USER_CONSTANTS_GENERATED\n\x7b\n" ++
          "    A USER_b;\n    B USER_a;\n\x7d;\n" :=
    ⟨⟨.constantBuffer, some "B", "a", .default, none, [.constants], ⟨4, 13⟩⟩,
      ⟨.constantBuffer, some "A", "b", .default, none, [.constants], ⟨3, 13⟩⟩,
      by decide +kernel, by decide +kernel⟩
  obtain ⟨shader, h⟩ := exists_ofSource hplan
  obtain ⟨_, hd', hgen⟩ := ofSource_eq_ok h
  rw [hd'] at hd
  cases hd
  obtain ⟨description, hdescription, hconstants⟩ := exists_description hd' hgen
  obtain ⟨front, back, ho⟩ := exists_output_eq hd' hgen hne
  rw [hresources, Resource.sorted_pair horder, hdescribed] at hconstants
  rw [hresources, htext] at ho
  exact ⟨shader, description, h, hdescription, hconstants, front, back, ho⟩

end Shader

end BindlessHlsl
