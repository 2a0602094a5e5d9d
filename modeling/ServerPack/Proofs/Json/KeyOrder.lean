import ServerPack.Proofs.Json.ReaderSteps

/-!
The members of every object that has been read stand in the order of their keys, and each key stands
once (`ordered_of_read`). The reader holds the members of an open object as a dictionary, so what it
holds stays in order with each token (`Reader.Goes.ordered`) and with all tokens of a text
(`Reader.Runs.ordered`).
-/

namespace ServerPack.Json

/-- The members of each object in a value are in order. -/
inductive Ordered : Json → Prop
  | null : Ordered .null
  | bool {value} : Ordered (.bool value)
  | number {spelling} : Ordered (.number spelling)
  | string {text} : Ordered (.string text)
  | array {items} (hitems : ∀ item ∈ items, Ordered item) : Ordered (.array items)
  | object {members} (hsorted : Dictionary.Sorted members)
    (hvalues : ∀ member ∈ members, Ordered member.2) :
      Ordered (.object members)

theorem ordered_of_scalar {token : Token} {value : Json} (h : token.scalar? .json = some value) :
    value.Ordered := by
  cases token with
  | null =>
      cases h
      exact .null
  | bool value =>
      cases h
      exact .bool
  | number spelling =>
      cases h
      exact .number
  | string text =>
      cases h
      exact .string
  | _ => cases h

/-- What an open container holds is in order. -/
inductive Frame.Ordered : Frame Json → Prop
  | array {items} (hitems : ∀ item ∈ items, Json.Ordered item) : Ordered (.array items)
  | object {members key} (hsorted : Dictionary.Sorted members)
    (hvalues : ∀ member ∈ members, Json.Ordered member.2) :
      Ordered (.object members key)

namespace Reader

/-- All that a reader holds is in order. -/
inductive Ordered : Reader Json → Prop
  | reading {stack expecting} (hstack : ∀ frame ∈ stack, Frame.Ordered frame) :
    Ordered (.reading stack expecting)
  | done {value} (hvalue : Json.Ordered value) : Ordered (.done value)

theorem ordered_complete {value : Json} (hvalue : value.Ordered) {stack : List (Frame Json)}
    (hstack : ∀ frame ∈ stack, Frame.Ordered frame) : Ordered (complete value stack) := by
  cases stack with
  | nil => exact .done hvalue
  | cons frame rest =>
      obtain ⟨hframe, hrest⟩ := List.forall_mem_cons.1 hstack
      cases hframe with
      | array hitems => exact .reading (List.forall_mem_cons.2
        ⟨.array (List.forall_mem_cons.2 ⟨hvalue, hitems⟩), hrest⟩)
      | @object members key hsorted hvalues =>
          have hmembers : ∀ member ∈ Dictionary.insert key value members, Json.Ordered member.2 := by
            intro member hmember
            rcases Dictionary.mem_insert hmember with rfl | hmember
            · exact hvalue
            · exact hvalues member hmember
          have hframe : Frame.Ordered (.object (Dictionary.insert key value members) key) :=
            .object (Dictionary.sorted_insert key value hsorted) hmembers
          exact .reading (List.forall_mem_cons.2 ⟨hframe, hrest⟩)

/-- With each token that it can go on with the reader keeps what it holds in order. -/
theorem Goes.ordered {reader next : Reader Json} {token : Token} (h : Goes .json reader token next)
    (hreader : reader.Ordered) : next.Ordered := by
  cases hreader with
  | done hvalue => cases h
  | reading hstack =>
      cases h with
      | scalar htakes hscalar => exact ordered_complete (ordered_of_scalar hscalar) hstack
      | openArray htakes hroom => exact .reading (List.forall_mem_cons.2 ⟨.array nofun, hstack⟩)
      | openObject htakes hroom => exact .reading (List.forall_mem_cons.2 ⟨.object .nil nofun, hstack⟩)
      | closeArray hends =>
          obtain ⟨⟨hitems⟩, hrest⟩ := List.forall_mem_cons.1 hstack
          exact ordered_complete (.array fun item hitem => hitems item (List.mem_reverse.1 hitem)) hrest
      | closeObject hends =>
          obtain ⟨_ | ⟨hsorted, hvalues⟩, hrest⟩ := List.forall_mem_cons.1 hstack
          exact ordered_complete (.object hsorted hvalues) hrest
      | firstKey =>
          obtain ⟨_ | ⟨hsorted, hvalues⟩, hrest⟩ := List.forall_mem_cons.1 hstack
          exact .reading (List.forall_mem_cons.2 ⟨.object hsorted hvalues, hrest⟩)
      | key =>
          obtain ⟨_ | ⟨hsorted, hvalues⟩, hrest⟩ := List.forall_mem_cons.1 hstack
          exact .reading (List.forall_mem_cons.2 ⟨.object hsorted hvalues, hrest⟩)
      | numberClose =>
          exact ordered_complete .number fun frame hframe => hstack frame (List.mem_of_mem_tail hframe)
      | _ => exact .reading hstack

theorem Runs.ordered {reader next : Reader Json} {tokens : List Token} (h : Runs .json reader tokens next)
    (hreader : reader.Ordered) : next.Ordered := by
  induction h with
  | nil => exact hreader
  | cons hgoes _ ih => exact ih (hgoes.ordered hreader)

end Reader

theorem ordered_of_read {text : Text} {value : Json} (h : read text = .ok value) : value.Ordered := by
  have hdone := (read_eq_ok_iff.1 h).ordered (.reading nofun)
  cases hdone with
  | done hvalue => exact hvalue

end ServerPack.Json
