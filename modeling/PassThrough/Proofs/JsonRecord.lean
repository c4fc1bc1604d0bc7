import PassThrough.Proofs.JsonText
import PassThrough.Source.Json

/-! Records read back. A record whose names differ gives back the value of each field, and a tagged record selects the
alternative whose name it holds. -/

namespace PassThrough.Json

section Readable

theorem itemsPlain_iff {items : List Json} : ItemsPlain items ↔ ∀ j ∈ items, j.IsPlain := by
  induction items with
  | nil => simp [ItemsPlain]
  | cons j rest ih => rw [ItemsPlain, ih, List.forall_mem_cons]

theorem membersPlain_iff {members : List (String × Json)} : MembersPlain members ↔ ∀ m ∈ members, m.2.IsPlain := by
  induction members with
  | nil => simp [MembersPlain]
  | cons m rest ih => rw [MembersPlain, ih, List.forall_mem_cons]

private theorem depthItems_le_iff {items : List Json} {d : Nat} : depthItems items ≤ d ↔ ∀ j ∈ items, j.depth ≤ d := by
  induction items with
  | nil => simp [depthItems]
  | cons j rest ih => rw [depthItems, Nat.max_le, ih, List.forall_mem_cons]

private theorem depthMembers_le_iff {members : List (String × Json)} {d : Nat} :
    depthMembers members ≤ d ↔ ∀ m ∈ members, m.2.depth ≤ d := by
  induction members with
  | nil => simp [depthMembers]
  | cons m rest ih => rw [depthMembers, Nat.max_le, ih, List.forall_mem_cons]

theorem Readable.mono {depth more : Nat} {j : Json} (h : Readable depth j) (hle : depth ≤ more) : Readable more j :=
  ⟨h.plain, Nat.le_trans h.shallow hle⟩

theorem Readable.members {depth : Nat} {members : List (String × Json)} (h : Readable depth (.object members)) :
    ∃ d, depth = d + 1 ∧ ∀ m ∈ members, Readable d m.2 := by
  have hall : depthMembers members + 1 ≤ depth := h.shallow
  have hdeep := depthMembers_le_iff.1 (show depthMembers members ≤ depth - 1 by omega)
  exact ⟨depth - 1, by omega, fun m hm => ⟨membersPlain_iff.1 h.plain m hm, hdeep m hm⟩⟩

theorem Readable.items {depth : Nat} {items : List Json} (h : Readable depth (.array items)) :
    ∀ j ∈ items, Readable depth j := by
  intro j hj
  have hdeep := depthItems_le_iff.1 (Nat.le_refl (depthItems items)) j hj
  have hall : depthItems items + 1 ≤ depth := h.shallow
  exact ⟨itemsPlain_iff.1 h.plain j hj, by omega⟩

end Readable

section Fields

private theorem filter_eq_of_nodup {members : List (String × Json)} (hnodup : (members.map Prod.fst).Nodup)
    {m : String × Json} (hm : m ∈ members) : members.filter (·.1 == m.1) = [m] := by
  induction members with
  | nil => cases hm
  | cons n rest ih =>
    rw [List.map_cons, List.nodup_cons, List.mem_map] at hnodup
    rcases List.mem_cons.1 hm with rfl | hm
    · have hnone : ∀ n ∈ rest, ¬(n.1 == m.1) = true := fun n hn heq => hnodup.1 ⟨n, hn, beq_iff_eq.1 heq⟩
      rw [List.filter_cons, if_pos (beq_self_eq_true _), List.filter_eq_nil_iff.2 hnone]
    · have hother : ¬(n.1 == m.1) = true := fun heq => hnodup.1 ⟨m, hm, (beq_iff_eq.1 heq).symm⟩
      rw [List.filter_cons, if_neg hother, ih hnodup.2 hm]

private theorem fields?_object_of_subset {members : List (String × Json)} (hnodup : (members.map Prod.fst).Nodup)
    (parts : List (String × Json)) (hparts : ∀ m ∈ parts, m ∈ members) :
    (object members).fields? (parts.map Prod.fst) = some (parts.map fun m => some m.2) := by
  rw [fields?]
  induction parts with
  | nil => rfl
  | cons m rest ih =>
    rw [List.forall_mem_cons] at hparts
    simp [member?, filter_eq_of_nodup hnodup hparts.1, ih hparts.2]

/-- An object that holds the fields of a record, and nothing else, gives back each of them. -/
theorem fields?_object {names : List String} {members : List (String × Json)} (hnames : members.map Prod.fst = names)
    (hnodup : names.Nodup) : (object members).fields? names = some (members.map fun m => some m.2) := by
  subst hnames
  exact fields?_object_of_subset hnodup members fun _ hm => hm

/-- No two alternatives have the same name, and no alternative repeats a field. -/
structure Variant.Separate {τ : Type} (variants : List (Variant τ)) : Prop where
  names : (variants.map Variant.name).Nodup
  fields : ∀ v ∈ variants, ("kind" :: v.fields).Nodup

theorem Variant.Separate.find? {τ : Type} {variants : List (Variant τ)} (h : (variants.map Variant.name).Nodup) {v : Variant τ}
    (hv : v ∈ variants) : variants.find? (·.name == v.name) = some v := by
  induction variants with
  | nil => cases hv
  | cons w rest ih =>
    rw [List.map_cons, List.nodup_cons, List.mem_map] at h
    rcases List.mem_cons.1 hv with rfl | hv
    · exact List.find?_cons_of_pos (beq_self_eq_true _)
    · have hother : ¬(w.name == v.name) = true := fun heq => h.1 ⟨v, hv, (beq_iff_eq.1 heq).symm⟩
      rw [List.find?_cons, Bool.eq_false_iff.2 hother]
      exact ih h.2 hv

/-- A tagged record is read as the alternative that it was written for. -/
theorem Variant.Separate.read?_object {τ : Type} {variants : List (Variant τ)} (h : Variant.Separate variants) {v : Variant τ}
    (i : Nat) (hi : variants[i]? = some v) {members : List (String × Json)} (hnames : members.map Prod.fst = v.fields) :
    Variant.read? variants (.object (("kind", .string v.name) :: members)) = some (v.tag, members.map fun m => some m.2) := by
  have hv := List.mem_of_getElem? hi
  have hnodup : ((("kind", Json.string v.name) :: members).map Prod.fst).Nodup := by
    rw [List.map_cons, hnames]
    exact h.fields v hv
  have hkind : member? (("kind", .string v.name) :: members) "kind" = some (some (.string v.name)) := by
    rw [member?, filter_eq_of_nodup hnodup (m := ("kind", .string v.name)) List.mem_cons_self]
  have hfields := fields?_object_of_subset hnodup members fun m hm => List.mem_cons_of_mem _ hm
  rw [hnames] at hfields
  simp [Variant.read?, hkind, Variant.select, Variant.Separate.find? h.names hv, hfields]

end Fields

section Slots
variable {α : Type} {encode : α → Json} {decode : Json → Option α}

@[simp] theorem text?_string (s : String) : text? (.string s) = some s := rfl

@[simp] theorem bool?_bool (b : Bool) : bool? (.bool b) = some b := rfl

@[simp] theorem Slot.required_some (j : Json) : Slot.required decode (some j) = decode j := rfl

@[simp] theorem Slot.withDefault_some (a : α) (j : Json) : Slot.withDefault a decode (some j) = decode j := rfl

theorem Slot.optional_some {j : Json} {a : α} (hj : j ≠ .null) (h : decode j = some a) :
    Slot.optional decode (some j) = some (some a) := by
  rw [Slot.optional]
  · rw [h, Option.map_some]
  · exact hj

theorem Slot.optional_orNull {o : Option α} (hnull : ∀ a, encode a ≠ .null) (h : ∀ a ∈ o, decode (encode a) = some a) :
    Slot.optional decode (some (orNull encode o)) = some o := by
  cases o with
  | none => rfl
  | some a => exact Slot.optional_some (hnull a) (h a rfl)

theorem list?_cons {j : Json} {js : List Json} {a : α} {as : List α} (ha : decode j = some a)
    (has : list? decode (.array js) = some as) : list? decode (.array (j :: js)) = some (a :: as) := by
  rw [list?] at has ⊢
  simp [ha, has]

theorem list?_map {as : List α} (h : ∀ a ∈ as, decode (encode a) = some a) :
    list? decode (.array (as.map encode)) = some as := by
  induction as with
  | nil => rfl
  | cons a as ih =>
    rw [List.forall_mem_cons] at h
    exact list?_cons h.1 (ih h.2)

end Slots
end PassThrough.Json
