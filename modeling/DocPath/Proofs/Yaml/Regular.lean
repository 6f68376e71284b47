import DocPath.Proofs.Json.Regular
import DocPath.Yaml.Reader

/-!
# Values of YAML documents are regular

The numbers of a tree come from its scalars, where a whole number gets a sign if it can have one.
Keys of a mapping that differ may have the same text; the later one is then put in the place of the
earlier one, so the value of a tree has each key once.
-/

namespace DocPath.Yaml

open Value

/-- Values put one after the other into a table of regular values leave it regular. -/
theorem isRegular_foldl_put {N : Number → Prop} {entries : List (String × Value)}
    (hentries : ∀ e ∈ entries, IsRegular N e.2) {fields : Table Value}
    (hfields : IsRegular N (.object fields)) :
    IsRegular N (.object (entries.foldl (fun t e => Table.put t e.1 e.2) fields)) := by
  induction entries generalizing fields with
  | nil => exact hfields
  | cons e entries ih =>
      obtain ⟨he, hrest⟩ := List.forall_mem_cons.1 hentries
      exact ih hrest (isRegular_put hfields he e.1)

/-- Whole numbers have a sign where they can have one. The keys of mappings do not count: only
their texts matter. -/
inductive Tree.IsNarrow : Tree → Prop where
  | null : IsNarrow null
  | bool (b : Bool) : IsNarrow (bool b)
  | number {n : Number} (narrow : n.IsNarrow) : IsNarrow (number n)
  | string (s : String) : IsNarrow (string s)
  | sequence {items : List Tree} (each : ∀ t ∈ items, IsNarrow t) : IsNarrow (sequence items)
  | mapping {entries : List (Tree × Tree)} (each : ∀ e ∈ entries, IsNarrow e.2) :
      IsNarrow (mapping entries)
  | tagged (tag : String) {content : Tree} (narrow : IsNarrow content) :
      IsNarrow (tagged tag content)

namespace Tree

theorem toValues_eq_map (items : List Tree) : toValues items = items.map toValue := by
  induction items with
  | nil => rfl
  | cons t items ih => rw [toValues, ih, List.map_cons]

theorem toFields_eq_map (entries : List (Tree × Tree)) :
    toFields entries = entries.map fun e => ((toValue e.1).text, toValue e.2) := by
  induction entries with
  | nil => rfl
  | cons e entries ih => rw [toFields, ih, List.map_cons]

/-- The value of a tree is regular. -/
theorem IsNarrow.isRegular_toValue {t : Tree} (h : t.IsNarrow) :
    IsRegular Number.IsNarrow t.toValue := by
  induction h with
  | null => exact .null
  | bool b => exact .bool b
  | number narrow => exact .number narrow
  | string s => exact .string s
  | sequence _ ih =>
      rw [toValue, toValues_eq_map]
      exact .array (List.forall_mem_map.2 ih)
  | mapping _ ih =>
      rw [toValue, toFields_eq_map]
      exact isRegular_foldl_put (List.forall_mem_map.2 ih)
        (.object List.nodup_nil (List.forall_mem_nil _))
  | tagged tag _ ih => exact ih

end Tree

/-! ## Scalars -/

namespace Schema

theorem isNarrow_of_wholeNumber {cs : List Char} {n : Number} (h : wholeNumber cs = .fits n) :
    n.IsNarrow := by
  unfold wholeNumber at h
  split at h
  · cases h
  · split at h
    · rename_i hfits
      cases h
      exact Number.isNarrow_of_ofInt? hfits
    · split at h <;> cases h

theorem isNarrow_plain {text : String} {t : Tree} (h : plain text = some t) : t.IsNarrow := by
  unfold plain at h
  simp only at h
  split at h
  · cases h
    exact .null
  · split at h
    · cases h
      exact .bool _
    · split at h
      · rename_i hfits
        cases h
        exact .number (isNarrow_of_wholeNumber hfits)
      · cases h
      · split at h
        · cases h
          exact .string text
        · split at h
          · cases h
            exact .number trivial
          · cases h
            exact .string text

theorem isNarrow_untagged {text : String} {isPlain : Bool} {t : Tree}
    (h : untagged text isPlain = some t) : t.IsNarrow := by
  unfold untagged at h
  split at h
  · exact isNarrow_plain h
  · cases h
    exact .string text

theorem isNarrow_withCoreTag {tag text : String} {t : Tree}
    (h : withCoreTag tag text = some t) : t.IsNarrow := by
  unfold withCoreTag at h
  simp only at h
  split at h
  · obtain ⟨b, -, rfl⟩ := Option.map_eq_some_iff.1 h
    exact .bool b
  · split at h
    · split at h
      · rename_i hfits
        cases h
        exact .number (isNarrow_of_wholeNumber hfits)
      · cases h
    · split at h
      · obtain ⟨x, -, rfl⟩ := Option.map_eq_some_iff.1 h
        exact .number trivial
      · split at h
        · split at h
          · cases h
            exact .null
          · cases h
        · cases h
          exact .string text

theorem isNarrow_scalar {tag : Option String} {text : String} {isPlain : Bool} {t : Tree}
    (h : scalar tag text isPlain = some t) : t.IsNarrow := by
  unfold scalar at h
  split at h
  · obtain ⟨content, hcontent, rfl⟩ := Option.map_eq_some_iff.1 h
    exact .tagged _ (isNarrow_untagged hcontent)
  · exact isNarrow_withCoreTag h
  · exact isNarrow_untagged h

theorem isNarrow_collection (tag : Option String) {content : Tree} (h : content.IsNarrow) :
    (collection tag content).IsNarrow := by
  unfold collection
  split
  · exact .tagged _ h
  · exact h

end Schema

/-! ## Trees of nodes -/

namespace Node

/-- All trees that a way of building gives are narrow. -/
def Build.IsNarrow (build : Build) : Prop :=
  ∀ node followed t followed', build node followed = some (t, followed') → t.IsNarrow

theorem isNarrow_buildItems {build : Build} (hbuild : build.IsNarrow) {items : List (Node Nat)}
    {done ts : List Tree} {followed followed' : Nat} (hdone : ∀ t ∈ done, t.IsNarrow)
    (h : buildItems build done items followed = some (ts, followed')) : ∀ t ∈ ts, t.IsNarrow := by
  induction items generalizing done followed with
  | nil =>
      cases h
      exact fun t ht => hdone t (List.mem_reverse.1 ht)
  | cons item items ih =>
      rw [buildItems] at h
      split at h
      · cases h
      · rename_i t followed'' hitem
        exact ih (List.forall_mem_cons.2 ⟨hbuild _ _ _ _ hitem, hdone⟩) h

theorem isNarrow_buildEntries {build : Build} (hbuild : build.IsNarrow)
    {entries : List (Node Nat × Node Nat)} {done es : List (Tree × Tree)}
    {followed followed' : Nat} (hdone : ∀ e ∈ done, e.2.IsNarrow)
    (h : buildEntries build done entries followed = some (es, followed')) :
    ∀ e ∈ es, e.2.IsNarrow := by
  induction entries generalizing done followed with
  | nil =>
      cases h
      exact fun e he => hdone e (List.mem_reverse.1 he)
  | cons entry entries ih =>
      obtain ⟨key, value⟩ := entry
      rw [buildEntries] at h
      split at h
      · cases h
      · split at h
        · cases h
        · split at h
          · cases h
          · rename_i v followed'' hvalue
            exact ih (List.forall_mem_cons.2 ⟨hbuild _ _ _ _ hvalue, hdone⟩) h

theorem isNarrow_buildHere {inner : Option Build} (hinner : ∀ build ∈ inner, build.IsNarrow) :
    (buildHere inner).IsNarrow := by
  intro node followed t followed' h
  rcases node with target | ⟨p, text, isPlain⟩ | ⟨p, items⟩ | ⟨p, entries⟩
  · cases h
  · obtain ⟨t', ht, heq⟩ := Option.map_eq_some_iff.1 h
    cases heq
    exact Schema.isNarrow_scalar ht
  · obtain ⟨build, hbuild, hmap⟩ := Option.bind_eq_some_iff.1 h
    obtain ⟨⟨ts, _⟩, hts, heq⟩ := Option.map_eq_some_iff.1 hmap
    cases heq
    have hitems := isNarrow_buildItems (hinner build hbuild) (List.forall_mem_nil _) hts
    exact Schema.isNarrow_collection p.tag (.sequence hitems)
  · obtain ⟨build, hbuild, hmap⟩ := Option.bind_eq_some_iff.1 h
    obtain ⟨⟨es, _⟩, hes, heq⟩ := Option.map_eq_some_iff.1 hmap
    cases heq
    have hentries := isNarrow_buildEntries (hinner build hbuild) (List.forall_mem_nil _) hes
    exact Schema.isNarrow_collection p.tag (.mapping hentries)

theorem isNarrow_buildAt (a : Anchors) {inner : Option Build}
    (hinner : ∀ build ∈ inner, build.IsNarrow) : (buildAt a inner).IsNarrow := by
  intro node followed t followed' h
  unfold buildAt at h
  split at h
  · split at h
    · cases h
    · split at h
      · cases h
      · exact isNarrow_buildHere hinner _ _ _ _ h
  · exact isNarrow_buildHere hinner _ _ _ _ h

theorem isNarrow_build (a : Anchors) (depth : Nat) : (build a depth).IsNarrow := by
  induction depth with
  | zero => exact isNarrow_buildAt a fun build h => by cases h
  | succ depth ih =>
      refine isNarrow_buildAt a fun build h => ?_
      cases h
      exact ih

theorem isNarrow_of_toTree? {node : Node String} {t : Tree} (h : node.toTree? = some t) :
    t.IsNarrow := by
  unfold toTree? at h
  split at h
  · cases h
  · obtain ⟨⟨t', followed⟩, hbuild, rfl⟩ := Option.map_eq_some_iff.1 h
    exact isNarrow_build _ _ _ _ _ _ hbuild

end Node

/-- The value of a YAML text is regular. -/
theorem isRegular_of_parse? {text : String} {v : Value} (h : parse? text = some v) :
    IsRegular Number.IsNarrow v := by
  obtain ⟨tokens, -, hnode⟩ := Option.bind_eq_some_iff.1 h
  obtain ⟨node, -, htree⟩ := Option.bind_eq_some_iff.1 hnode
  obtain ⟨t, ht, heq⟩ := Option.bind_eq_some_iff.1 htree
  cases heq
  exact (Node.isNarrow_of_toTree? ht).isRegular_toValue

end DocPath.Yaml
