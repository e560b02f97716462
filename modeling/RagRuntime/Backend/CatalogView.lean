import RagRuntime.Base.Versioned
import RagRuntime.Backend.Catalog

/-! The catalog as a versioned store: a document stands at its latest revision with the hash of its
content, or with nothing where it was erased. -/
namespace RagRuntime.Backend.CatalogBackend
open RagRuntime.Base RagRuntime.Core

def view (b : CatalogBackend) : Versioned Bytes (Option Bytes) := fun key =>
  (b.latestRevisions.find? key).map fun revision =>
    (revision,(b.documents.find? key).map fun active => active.prepared.contentHash)

/-- Documents are filed under their keys, at their latest revisions. -/
structure Coherent (b : CatalogBackend) : Prop where
  documents : ∀ key active, b.documents.find? key = some active →
    active.prepared.key = key ∧ ValidDocument active.prepared ∧
      b.latestRevisions.find? key = some active.revision
  revisions : ∀ key revision, b.latestRevisions.find? key = some revision →
    key ≠ [] ∧ revision ≠ 0

variable {b c : CatalogBackend} {key hash : Bytes} {revision : ℕ} {document : PreparedDocument}
  {built : Result Unit} {x : Option Bytes}

lemma view_eq_some : b.view key = some (revision,x) ↔
    b.latestRevisions.find? key = some revision ∧
      (b.documents.find? key).map (fun active => active.prepared.contentHash) = x := by
  unfold view
  rw [Option.map_eq_some_iff]
  constructor
  · intro h
    obtain ⟨r,hr,heq⟩ := h
    cases heq
    exact ⟨hr,rfl⟩
  · intro h
    exact ⟨revision,h.1,by rw [h.2]⟩

lemma latest_eq_some : b.latestRevisions.find? key = some revision ↔
    ∃ x, b.view key = some (revision,x) :=
  ⟨fun h => ⟨_,view_eq_some.mpr ⟨h,rfl⟩⟩,fun h => (view_eq_some.mp h.choose_spec).1⟩

lemma ahead_iff : b.view.Ahead key revision ↔ b.stale key revision = false := by
  rw [stale_eq_false]
  constructor
  · intro h latest hlatest
    obtain ⟨x,hx⟩ := latest_eq_some.mp hlatest
    exact h latest x hx
  · intro h latest x hx
    exact h latest (view_eq_some.mp hx).1

/-- What is active is what the view shows. -/
lemma Coherent.active (h : b.Coherent) (hview : b.view key = some (revision,some hash)) :
    ∃ prepared, b.documents.find? key = some ⟨revision,prepared⟩ ∧ prepared.contentHash = hash ∧
      ValidDocument prepared := by
  obtain ⟨hlatest,hmap⟩ := view_eq_some.mp hview
  obtain ⟨active,hactive,hhash⟩ := Option.map_eq_some_iff.mp hmap
  obtain ⟨-,hvalid,hrevision⟩ := h.documents key active hactive
  cases hlatest.symm.trans hrevision
  exact ⟨active.prepared,hactive,hhash,hvalid⟩

lemma absent_of_view (hview : b.view key = some (revision,none)) :
    b.documents.find? key = none := by
  simpa using (view_eq_some.mp hview).2

lemma view_publish_insert (b : CatalogBackend) (document : PreparedDocument) (revision : ℕ) :
    (b.publish (b.documents.insert document.key ⟨revision,document⟩) document.key revision).view =
      b.view.write document.key revision (some document.contentHash) := by
  funext k
  by_cases hk : k = document.key
  · simp [view,publish,hk]
  · rw [Versioned.write_of_ne hk]
    simp [view,publish,hk]

lemma view_publish_erase (b : CatalogBackend) (key : Bytes) (revision : ℕ) :
    (b.publish (b.documents.erase key) key revision).view = b.view.write key revision none := by
  funext k
  by_cases hk : k = key
  · simp [view,publish,hk]
  · rw [Versioned.write_of_ne hk]
    simp [view,publish,hk]

@[simp] lemma view_compact (b : CatalogBackend) : b.compact.view = b.view := rfl

@[simp] lemma view_empty : empty.view = fun _ => none := rfl

lemma coherent_empty : empty.Coherent := by
  constructor
  · intro key active h
    cases h
  · intro key revision h
    cases h

lemma Coherent.compact (h : b.Coherent) : b.compact.Coherent := ⟨h.documents,h.revisions⟩

/-- What the catalog becomes when a document is written at a revision. -/
structure Written (b c : CatalogBackend) (key : Bytes) (revision : ℕ)
    (x : Option Bytes) : Prop where
  coherent : c.Coherent
  shown : c.view key = some (revision,x)
  step : c = b ∨ b.view.Ahead key revision ∧ c.view = b.view.write key revision x ∧
    c.number = b.number + 1

lemma Written.view (h : Written b c key revision x) :
    c.view = b.view ∨ b.view.Ahead key revision ∧ c.view = b.view.write key revision x := by
  obtain rfl | ⟨hahead,hview,-⟩ := h.step
  · exact Or.inl rfl
  · exact Or.inr ⟨hahead,hview⟩

lemma Written.older (h : Written b c key revision x) : b.view.Older c.view := by
  obtain hsame | ⟨hahead,hview⟩ := h.view
  · rw [hsame]
    exact Versioned.Older.refl _
  · rw [hview]
    exact Versioned.older_write hahead x

/-- A successful activation. -/
theorem Coherent.activate (h : b.Coherent) (hok : b.activate document revision built = (.ok (),c)) :
    ValidDocument document ∧ Written b c document.key revision (some document.contentHash) := by
  have hactivated := b.activate_activated document revision built
  rw [hok] at hactivated
  cases hactivated with
  | already hvalid halready =>
    obtain ⟨hlatest,active,hactive,hrevision,hhash⟩ := alreadyActive_eq_true.mp halready
    refine ⟨hvalid,h,view_eq_some.mpr ⟨hlatest,?_⟩,Or.inl rfl⟩
    rw [hactive,Option.map_some,hhash]
  | published hvalid hrevision hfresh =>
    have hview := view_publish_insert b document revision
    refine ⟨hvalid,⟨?_,?_⟩,?_,Or.inr ⟨ahead_iff.mpr hfresh,hview,rfl⟩⟩
    · intro k active hactive
      simp only [publish,OrdMap.find?_insert] at hactive ⊢
      split_ifs at hactive ⊢ with hk
      · cases hactive
        exact ⟨hk.symm,hvalid,rfl⟩
      · exact h.documents k active hactive
    · intro k r hr
      simp only [publish,OrdMap.find?_insert] at hr
      split_ifs at hr with hk
      · cases hr
        exact ⟨hk ▸ hvalid.key,hrevision⟩
      · exact h.revisions k r hr
    · rw [hview,Versioned.write_self]

/-- A successful erasure. -/
theorem Coherent.erase {applied : Bool} (h : b.Coherent)
    (hok : b.erase key revision built = (.ok applied,c)) : Written b c key revision none := by
  have herased := b.erase_erased key revision built
  rw [hok] at herased
  cases herased with
  | already hlatest hgone =>
    refine ⟨h,view_eq_some.mpr ⟨hlatest,?_⟩,Or.inl rfl⟩
    rw [hgone,Option.map_none]
  | published hne hrevision hfresh =>
    have hview := view_publish_erase b key revision
    refine ⟨⟨?_,?_⟩,?_,Or.inr ⟨ahead_iff.mpr hfresh,hview,rfl⟩⟩
    · intro k active hactive
      simp only [publish,OrdMap.find?_insert,OrdMap.find?_erase] at hactive ⊢
      split_ifs at hactive with hk
      rw [if_neg hk]
      exact h.documents k active hactive
    · intro k r hr
      simp only [publish,OrdMap.find?_insert] at hr
      split_ifs at hr with hk
      · cases hr
        exact ⟨hk ▸ hne,hrevision⟩
      · exact h.revisions k r hr
    · rw [hview,Versioned.write_self]

/-- With its index built, an activation succeeds unless the document stands at a later revision or
at this one with other content. -/
theorem Coherent.activate_ok_iff (h : b.Coherent) (hvalid : ValidDocument document)
    (hrevision : revision ≠ 0) : (∃ c, b.activate document revision (.ok ()) = (.ok (),c)) ↔
      b.view.Ahead document.key revision ∨
        b.view document.key = some (revision,some document.contentHash) := by
  constructor
  · intro hok
    obtain ⟨c,hc⟩ := hok
    obtain ⟨-,hshown,hstep⟩ := (h.activate hc).2
    obtain rfl | ⟨hahead,-⟩ := hstep
    · exact Or.inr hshown
    · exact Or.inl hahead
  · intro hview
    unfold CatalogBackend.activate
    rw [validate_eq_ok.mpr ⟨hvalid,hrevision⟩]
    obtain hahead | hshown := hview
    · rw [ahead_iff.mp hahead]
      exact ⟨_,rfl⟩
    · have hstale : b.stale document.key revision = true := by
        rw [← Bool.not_eq_false,← ahead_iff]
        exact Versioned.Reaches.not_ahead ⟨revision,_,hshown,le_rfl⟩
      have halready : b.alreadyActive document revision = true := by
        obtain ⟨prepared,hactive,hhash,-⟩ := h.active hshown
        exact alreadyActive_eq_true.mpr ⟨(view_eq_some.mp hshown).1,_,hactive,rfl,hhash⟩
      simp only [hstale,halready,if_true]
      exact ⟨b,rfl⟩

theorem Coherent.erase_ok_iff (h : b.Coherent) (hkey : key ≠ []) (hrevision : revision ≠ 0) :
    (∃ applied c, b.erase key revision (.ok ()) = (.ok applied,c)) ↔
      b.view.Ahead key revision ∨ b.view key = some (revision,none) := by
  constructor
  · intro hok
    obtain ⟨applied,c,hc⟩ := hok
    obtain ⟨-,hshown,hstep⟩ := h.erase hc
    obtain rfl | ⟨hahead,-⟩ := hstep
    · exact Or.inr hshown
    · exact Or.inl hahead
  · intro hview
    unfold CatalogBackend.erase
    rw [if_neg (not_or.mpr ⟨hkey,hrevision⟩)]
    obtain hahead | hshown := hview
    · simp only [ahead_iff.mp hahead,Bool.false_eq_true,if_false]
      exact ⟨_,_,rfl⟩
    · have hstale : b.stale key revision = true := by
        rw [← Bool.not_eq_false,← ahead_iff]
        exact Versioned.Reaches.not_ahead ⟨revision,_,hshown,le_rfl⟩
      have halready := And.intro (view_eq_some.mp hshown).1 (absent_of_view hshown)
      simp only [hstale,if_true,if_pos halready]
      exact ⟨_,_,rfl⟩

lemma restoreDocuments_of {revisions : OrdMap Bytes ℕ} {entries : List ActiveDocument}
    {documents : Catalog} (hfiled : Filed documents)
    (hvalid : ∀ entry ∈ entries, ValidDocument entry.prepared ∧ entry.revision ≠ 0 ∧
      revisions.find? entry.prepared.key = some entry.revision)
    (hkeys : (entries.map fun entry => entry.prepared.key).Nodup)
    (hfresh : ∀ entry ∈ entries, documents.find? entry.prepared.key = none) :
    ∃ out, EmbeddedBackend.restoreDocuments revisions entries documents = .ok out := by
  induction entries generalizing documents with
  | nil => exact ⟨documents,rfl⟩
  | cons entry rest ih =>
    obtain ⟨hdocument,hrevision,hlatest⟩ := hvalid entry (by simp)
    obtain ⟨hhead,hrest⟩ := List.nodup_cons.mp hkeys
    have hnone := OrdMap.contains_eq_false.mpr (hfresh entry (by simp))
    rw [EmbeddedBackend.restoreDocuments,validate_eq_ok.mpr ⟨hdocument,hrevision⟩]
    simp only [hnone,Bool.false_eq_true,if_false,hlatest,ne_eq,not_true]
    apply ih (hfiled.insert hdocument hrevision) (fun e he => hvalid e (by simp [he])) hrest
    intro e he
    have hne : e.prepared.key ≠ entry.prepared.key := fun heq =>
      hhead (List.mem_map.mpr ⟨e,he,heq⟩)
    rw [OrdMap.find?_insert,if_neg hne]
    exact hfresh e (by simp [he])

/-- A coherent catalog comes back from its checkpoint. -/
theorem Coherent.restore_snapshot (h : b.Coherent) (walPosition : ℕ) (built : Result Unit) :
    restore (b.snapshot walPosition) built = built.map fun _ => b := by
  have hrevisions : ((b.snapshot walPosition).revisions.entries.any
      fun e => e.1 = [] ∨ e.2 = 0) = false := by
    rw [List.any_eq_false]
    intro e he
    obtain ⟨hkey,hrevision⟩ := h.revisions e.1 e.2 (OrdMap.find?_eq_some.mpr he)
    simp [hkey,hrevision]
  have hfiled : Filed b.documents := fun k entry hentry =>
    have hdocument := h.documents k entry hentry
    ⟨hdocument.1,hdocument.2.1,(h.revisions k _ hdocument.2.2).2⟩
  have hkeys : (b.documents.values.map fun entry => entry.prepared.key).Nodup := by
    have hfst := congrArg (List.map Prod.fst) hfiled.values_map
    rw [List.map_map] at hfst
    exact hfst ▸ b.documents.keys_nodup
  have hvalid : ∀ entry ∈ b.documents.values, ValidDocument entry.prepared ∧ entry.revision ≠ 0 ∧
      b.latestRevisions.find? entry.prepared.key = some entry.revision := by
    intro entry hentry
    obtain ⟨k,hk⟩ := OrdMap.mem_values.mp hentry
    obtain ⟨hkey,hdocument,hlatest⟩ := h.documents k entry hk
    rw [hkey]
    exact ⟨hdocument,(h.revisions k _ hlatest).2,hlatest⟩
  have hempty : Filed (∅ : Catalog) := fun k a ha => by cases ha
  obtain ⟨out,hout⟩ := restoreDocuments_of hempty hvalid hkeys fun _ _ => rfl
  obtain rfl := (EmbeddedBackend.restoreDocuments_values hfiled hout).2
  unfold restore
  rw [hrevisions]
  simp only [Bool.false_eq_true,if_false,snapshot,hout,bind,Except.bind]
  cases built with
  | error e => rfl
  | ok u => rfl

end RagRuntime.Backend.CatalogBackend
