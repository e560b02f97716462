import RagRuntime.Dense.SidecarFile

/-! A sidecar is read back as it was written, and answers like the index in memory. -/
namespace RagRuntime.Dense
open RagRuntime.Base RagRuntime.Core RagRuntime.Backend RagRuntime.Store Decoder

section roundTrip

/-- What fits the file of a sidecar. -/
structure Storable (fingerprint : Bytes) (source : List VectorRecord) : Prop where
  named : fingerprint ≠ []
  fingerprint : fingerprint.length < 256^4
  rows : source.length ≤ kMaxChunks
  dimension : NativeExactIndex.firstDimension source ≤ kMaxVectorDimension
  keys : ∀ row ∈ source, row.key.length < 256^4
  floats : ∀ row ∈ source, ∀ x ∈ row.vector, Single.IsFloat x

variable {fingerprint : Bytes} {source : List VectorRecord} {dimension : ℕ}

lemma checkSidecarRows_ok {seen : List Bytes} (hvalid : ValidRows source dimension)
    (hseen : ∀ row ∈ source, row.key ∉ seen)
    (hnorm : ∀ row ∈ source, normalizedDouble row.vector = true) :
    checkSidecarRows dimension source seen = .ok () := by
  induction source generalizing seen with
  | nil => rfl
  | cons row source ih =>
    obtain ⟨hkey,hkeys⟩ := List.forall_mem_cons.mp hvalid.keys
    obtain ⟨hnew,hnews⟩ := List.forall_mem_cons.mp hseen
    obtain ⟨hdim,hdims⟩ := List.forall_mem_cons.mp hvalid.dimension
    obtain ⟨hrow,hrows⟩ := List.forall_mem_cons.mp hnorm
    obtain ⟨hnot,hnodup⟩ := List.nodup_cons.mp hvalid.nodup
    rw [checkSidecarRows,if_neg (by tauto),if_neg (by simp [hdim,hrow])]
    refine ih ⟨hkeys,hnodup,hdims,fun r hr => hvalid.normalized r (List.mem_cons_of_mem _ hr)⟩ ?_
      hrows
    intro other hother hmem
    rcases List.mem_cons.mp hmem with hmem | hmem
    · exact hnot (hmem ▸ List.mem_map_of_mem hother)
    · exact hnews other hother hmem

lemma reads_fields {rows : ℕ} (hfingerprint : fingerprint.length < 256^4)
    (hrows : rows < 256^8) (hdimension : dimension < 256^8) :
    Reads (ExactMapping.readFields fingerprint) (sidecarMetadata fingerprint rows dimension)
      (rows,dimension) :=
  (reads_number (by decide)).bind ((reads_ensure rfl).after ((reads_string (by decide)).bind
    ((reads_ensure rfl).after ((reads_string (by decide)).bind ((reads_ensure rfl).after
      ((reads_string hfingerprint).bind ((reads_ensure rfl).after ((reads_number hrows).bind
        ((reads_number hdimension).last (.pure _))))))))))

lemma reads_sidecarMetadata {rows : ℕ} (hfingerprint : fingerprint.length < 256^4)
    (hrows : rows ≤ kMaxChunks) (hdimension : dimension ≤ kMaxVectorDimension)
    (hsome : rows ≠ 0 → dimension ≠ 0) :
    Reads (ExactMapping.readMetadata fingerprint) (sidecarMetadata fingerprint rows dimension)
      (rows,dimension) := by
  have hbounds := hrows
  have hbounds' := hdimension
  simp only [kMaxChunks,kMaxVectorDimension] at hbounds hbounds'
  exact (reads_fields hfingerprint (by omega) (by omega)).last
    ((reads_ensure ⟨hrows,hdimension,hsome⟩).after (.pure _))

/-- Metadata beyond the limits is refused. -/
lemma whole_readMetadata {rows : ℕ} (hfingerprint : fingerprint.length < 256^4)
    (hrows : rows < 256^8) (hdimension : dimension < 256^8)
    (hbeyond : dimension > kMaxVectorDimension) (trailing : Error) :
    (ExactMapping.readMetadata fingerprint).whole trailing
      (sidecarMetadata fingerprint rows dimension) =
        .error (corrupt "dense sidecar metadata is invalid") := by
  have hfields := reads_fields hfingerprint hrows hdimension []
  rw [List.append_nil] at hfields
  have hlimits : ¬(rows ≤ kMaxChunks ∧ dimension ≤ kMaxVectorDimension ∧
      (rows ≠ 0 → dimension ≠ 0)) := by
    rintro ⟨-,hwithin,-⟩
    omega
  have hread : ExactMapping.readMetadata fingerprint (sidecarMetadata fingerprint rows dimension) =
      .error (corrupt "dense sidecar metadata is invalid") := by
    rw [ExactMapping.readMetadata,bind_apply,hfields,Except.bind,bind_apply,ensure,if_neg hlimits]
    rfl
  rw [Decoder.whole,hread]

/-- The keys are read back, with a row for each. -/
lemma reads_sidecarKeys (hvalid : ValidRows source dimension)
    (hdimension : dimension ≤ kMaxVectorDimension) (hrows : source.length ≤ kMaxChunks)
    (hkeys : ∀ row ∈ source, row.key.length < 256^4)
    (hfloats : ∀ row ∈ source, ∀ x ∈ row.vector, Single.IsFloat x)
    (hnorm : ∀ row ∈ source, normalizedDouble row.vector = true) :
    Reads (ExactMapping.readKeys (sidecarMatrix source) source.length dimension)
      (sidecarKeys source) (source.map VectorRecord.key) := by
  have hcount : source.length < 256^8 := by
    simp only [kMaxChunks] at hrows
    omega
  refine (reads_number hcount).bind ((reads_ensure rfl).after ?_)
  refine reads_repeatFrom putKey (List.map VectorRecord.key) [] ?_
  intro before row rest hsplit
  have hin : row ∈ source := by
    rw [← hsplit]
    simp
  have hnew : row.key ∉ before.map VectorRecord.key := by
    have hnodup := hvalid.nodup
    rw [← hsplit,List.map_append,List.map_cons,List.nodup_append] at hnodup
    intro hmem
    exact hnodup.2.2 _ hmem _ List.mem_cons_self rfl
  have hindex : before.length ≤ kMaxChunks := by
    rw [← hsplit,List.length_append] at hrows
    omega
  have hrow : ExactMapping.readKeyedRow (sidecarMatrix source) dimension before.length
      (before.map VectorRecord.key) = do
        let key ← string (.failed (corrupt "dense sidecar key is invalid"))
        ensure (.failed (corrupt "dense sidecar key is invalid"))
          (key ≠ [] ∧ key ∉ before.map VectorRecord.key)
        ensure (.failed (corrupt "dense sidecar vector is invalid"))
          (normalizedRow (vectorBytes row.vector) = true)
        return before.map VectorRecord.key ++ [key] := by
    have hfound := readRow_sidecarMatrix (by rw [hsplit]; exact hvalid.dimension) hdimension hindex
    rw [hsplit] at hfound
    unfold ExactMapping.readKeyedRow
    rw [hfound]
  rw [List.nil_append,List.length_nil,Nat.zero_add,hrow,List.map_append,List.map_singleton]
  refine (reads_string (hkeys row hin)).last ((reads_ensure ⟨hvalid.keys row hin,hnew⟩).after
    ((reads_ensure ?_).after (.pure _)))
  rw [normalizedRow_vectorBytes (hfloats row hin)]
  exact hnorm row hin

lemma container_size (file : ExactSidecar) :
    file.container.sections.size ≤ 3 ∧ (Container.payloads file.container.sections.entries).length ≤
      (sidecarMetadata file.fingerprint file.rows.length file.dimension).length +
        (sidecarKeys file.rows).length + (sidecarMatrix file.rows).length := by
  set named := Container.empty.put .«meta»
    (sidecarMetadata file.fingerprint file.rows.length file.dimension) with hnamed
  set keyed := named.put .chunks (sidecarKeys file.rows) with hkeyed
  have hsections : file.container.sections =
      (keyed.put .embed (sidecarMatrix file.rows)).sections := rfl
  have hnone : Container.empty.sections.size = 0 ∧
      (Container.payloads Container.empty.sections.entries).length = 0 := ⟨rfl,rfl⟩
  have hcounts := And.intro (hnamed ▸ Container.size_put_le _ _ _)
    (And.intro (hkeyed ▸ Container.size_put_le _ _ _)
      (Container.size_put_le keyed .embed (sidecarMatrix file.rows)))
  have hlengths := And.intro (hnamed ▸ Container.length_payloads_put_le _ _ _)
    (And.intro (hkeyed ▸ Container.length_payloads_put_le _ _ _)
      (Container.length_payloads_put_le keyed .embed (sidecarMatrix file.rows)))
  rw [hsections]
  omega

/-- The whole file is far shorter than its offsets reach. -/
lemma length_container {file : ExactSidecar} (hfingerprint : file.fingerprint.length < 256^4)
    (hrows : file.rows.length ≤ kMaxChunks) (hdimension : file.dimension ≤ 2*kMaxVectorDimension)
    (hvectors : ∀ row ∈ file.rows, row.vector.length = file.dimension)
    (hkeys : ∀ row ∈ file.rows, row.key.length < 256^4) :
    file.container.serialize.length < 256^8 := by
  obtain ⟨hcount,hpayloads⟩ := container_size file
  have hmeta : (sidecarMetadata file.fingerprint file.rows.length file.dimension).length =
      43 + file.fingerprint.length := by
    simp only [sidecarMetadata,List.length_append,leBytes_length,str_length]
    rw [show kImplementation.length = 6 from rfl,show kAlgorithm.length = 5 from rfl]
    omega
  have hchunks : (sidecarKeys file.rows).length ≤ 8 + (4+256^4)*file.rows.length := by
    rw [sidecarKeys,List.length_append,leBytes_length]
    apply Nat.add_le_add_left
    apply length_encodeFrom_le
    intro i row hrow
    rw [putKey,str_length]
    exact Nat.add_le_add_left (hkeys row hrow).le 4
  have hmatrix := length_sidecarMatrix hvectors
  have hcells : file.dimension*file.rows.length ≤ 2*kMaxVectorDimension*kMaxChunks :=
    Nat.mul_le_mul hdimension hrows
  rw [Container.serialize_length,Container.body_length,Container.payloadBegin]
  simp only [kMaxChunks,kMaxVectorDimension,kContainerHeaderBytes,kEntryBytes,kTrailerBytes,
    Nat.mul_assoc] at *
  omega

lemma container_get (file : ExactSidecar) :
    file.container.get .«meta» =
        some (sidecarMetadata file.fingerprint file.rows.length file.dimension) ∧
      file.container.get .chunks = some (sidecarKeys file.rows) ∧
      file.container.get .embed = some (sidecarMatrix file.rows) := by
  simp only [ExactSidecar.container,Container.get,Container.setFlags,Container.put,
    Container.putRaw,OrdMap.find?_insert]
  exact ⟨rfl,rfl,rfl⟩

/-- A file of rows is read in any order of its table; a file of none if the sort keeps the table. -/
lemma container_before {file : ExactSidecar} {order : OffsetSort}
    (hvalid : ValidRows file.rows file.dimension) (hkeeps : file.rows = [] → order.Keeps 3) :
    (order.sort file.container.written.sections).Pairwise SectionRange.Before := by
  by_cases hempty : file.rows = []
  · exact (hkeeps hempty).before (container_size file).1
  · obtain ⟨row,rest,hrows⟩ := List.exists_cons_of_ne_nil hempty
    have hrow : 0 < row.vector.length :=
      normalized_length_pos (hvalid.normalized row (by simp [hrows]))
    have hmeta : sidecarMetadata file.fingerprint file.rows.length file.dimension ≠ [] := by
      apply List.ne_nil_of_length_pos
      simp only [sidecarMetadata,List.length_append,leBytes_length]
      omega
    have hkeys : sidecarKeys file.rows ≠ [] := by
      apply List.ne_nil_of_length_pos
      rw [sidecarKeys,List.length_append,leBytes_length]
      omega
    have hmatrix : sidecarMatrix file.rows ≠ [] := by
      apply List.ne_nil_of_length_pos
      rw [hrows,sidecarMatrix,List.flatMap_cons,List.length_append,length_vectorBytes]
      omega
    have hfilled : file.container.Filled := (((Container.filled_empty.put .«meta» hmeta).put .chunks
      hkeys).put .embed hmatrix)
    exact hfilled.emptyLast.before order

lemma checkMatrix_written (hvectors : ∀ row ∈ source, row.vector.length = dimension)
    (hrows : source.length ≤ kMaxChunks) (hdimension : dimension ≤ kMaxVectorDimension) :
    ExactMapping.checkMatrix (sidecarMatrix source).length source.length dimension = .ok () := by
  have hsize := length_sidecarMatrix hvectors
  have hproduct := rowStart_eq hdimension hrows
  rw [rowStart] at hproduct
  have hroom : ¬(dimension ≠ 0 ∧ source.length > (sidecarMatrix source).length/4/dimension) := by
    rintro ⟨hne,hlong⟩
    rw [hsize,Nat.mul_assoc,Nat.mul_div_cancel_left _ (by norm_num),
      Nat.mul_div_cancel_left _ (Nat.pos_of_ne_zero hne)] at hlong
    exact lt_irrefl _ hlong
  rw [ExactMapping.checkMatrix,if_neg hroom,if_neg]
  rw [not_not,hproduct,hsize]

lemma rows_written (hvectors : ∀ row ∈ source, row.vector.length = dimension)
    (hrows : source.length ≤ kMaxChunks) (hdimension : dimension ≤ kMaxVectorDimension)
    (hfloats : ∀ row ∈ source, ∀ x ∈ row.vector, Single.IsFloat x) (view : ContainerView) :
    ExactMapping.rows ⟨view,source.map VectorRecord.key,sidecarMatrix source,dimension⟩ =
      source := by
  apply List.ext_getElem?
  intro i
  rw [ExactMapping.rows,List.getElem?_map,List.getElem?_zipIdx,List.getElem?_map]
  cases hrow : source[i]? with
  | none => rfl
  | some row =>
    obtain ⟨hi,hget⟩ := List.getElem?_eq_some_iff.mp hrow
    have hsplit : source.take i ++ row::source.drop (i+1) = source := by
      rw [← hget,List.cons_getElem_drop_succ,List.take_append_drop]
    have hlength : (source.take i).length = i := by
      rw [List.length_take]
      omega
    have hread := readRow_sidecarMatrix (by rw [hsplit]; exact hvectors) hdimension
      (show (source.take i).length ≤ kMaxChunks by omega)
    rw [hsplit,hlength,readRow] at hread
    split_ifs at hread
    simp only [Option.map_some,Nat.zero_add]
    rw [Option.some.inj hread,rowVector_vectorBytes (hfloats row (List.mem_of_getElem? hrow))]

lemma writeExactSidecarFile_eq (hvalid : ValidRows source dimension) (hnamed : fingerprint ≠ [])
    (hdimension : dimension = NativeExactIndex.firstDimension source)
    (hnorm : ∀ row ∈ source, normalizedDouble row.vector = true) :
    writeExactSidecarFile fingerprint source =
      .ok (⟨fingerprint,dimension,source⟩ : ExactSidecar).container.writeFile := by
  rw [writeExactSidecarFile,writeExactSidecar,if_neg hnamed,← hdimension,
    checkSidecarRows_ok hvalid (fun _ _ => List.not_mem_nil) hnorm]
  rfl

/-- The sections of a written file are opened as they were put into the container. -/
lemma open_container {file : ExactSidecar} {order : OffsetSort}
    (hsize : file.container.serialize.length < 256^8)
    (hbefore : (order.sort file.container.written.sections).Pairwise SectionRange.Before)
    (expected : Bytes) : ∃ view, ExactMapping.open order file.container.writeFile expected =
      ExactMapping.openSections view
        (sidecarMetadata file.fingerprint file.rows.length file.dimension) (sidecarKeys file.rows)
        (sidecarMatrix file.rows) expected := by
  have hcount : file.container.sections.size ≤ kMaxSections :=
    (container_size file).1.trans (by decide)
  have hne : file.container.writeFile ≠ [] := by
    apply List.ne_nil_of_length_pos
    rw [Container.writeFile_eq,Container.serialize_length]
    exact Nat.succ_pos _
  have hflag : ¬file.container.flags.val &&& kHasEmbeddings.val = 0 := by
    change ¬kHasEmbeddings.val &&& kHasEmbeddings.val = 0
    decide
  obtain ⟨view,hview,hget,hflags⟩ :=
    Container.openFile_writeFile order file.container hcount hsize hbefore
  obtain ⟨hmeta,hkeys,hmatrix⟩ := container_get file
  refine ⟨view,?_⟩
  unfold ExactMapping.open
  rw [if_neg hne,hview]
  dsimp only
  rw [hget,hget,hget,hmeta,hkeys,hmatrix,hflags]
  dsimp only
  rw [if_neg hflag]

/-- A file that was written is opened, and a search of it is one of the rows. -/
theorem open_written (order : OffsetSort) (hvalid : ValidRows source dimension)
    (hfits : Storable fingerprint source)
    (hdimension : dimension = NativeExactIndex.firstDimension source)
    (hnorm : ∀ row ∈ source, normalizedDouble row.vector = true)
    (hkeeps : source = [] → order.Keeps 3) : ∃ file index,
      writeExactSidecarFile fingerprint source = .ok file ∧
      ExactMapping.open order file fingerprint = .ok index ∧
      ∀ query allowed k, index.search query allowed k =
        Stop.lift (MappedExactIndex.search ⟨source,dimension⟩ query allowed k) := by
  have hwide : dimension ≤ kMaxVectorDimension := hdimension ▸ hfits.dimension
  set file : ExactSidecar := ⟨fingerprint,dimension,source⟩
  have hsize : file.container.serialize.length < 256^8 := length_container hfits.fingerprint
    hfits.rows (hwide.trans (Nat.le_mul_of_pos_left _ two_pos)) hvalid.dimension hfits.keys
  have hsome : source.length ≠ 0 → dimension ≠ 0 := by
    intro hlength
    obtain ⟨row,rest,hrows⟩ := List.exists_cons_of_length_pos (Nat.pos_of_ne_zero hlength)
    have hrow := normalized_length_pos (hvalid.normalized row (by simp [hrows]))
    rw [hvalid.dimension row (by simp [hrows])] at hrow
    exact hrow.ne'
  obtain ⟨view,hview⟩ := open_container hsize (container_before hvalid hkeeps) fingerprint
  set index : ExactMapping :=
    ⟨view,source.map VectorRecord.key,sidecarMatrix source,dimension⟩
  have hopen : ExactMapping.open order file.container.writeFile fingerprint = .ok index := by
    rw [hview]
    unfold ExactMapping.openSections
    rw [(reads_sidecarMetadata hfits.fingerprint hfits.rows hwide hsome).whole]
    dsimp only
    rw [checkMatrix_written hvalid.dimension hfits.rows hwide]
    dsimp only
    rw [(reads_sidecarKeys hvalid hwide hfits.rows hfits.keys hfits.floats hnorm).whole]
  refine ⟨_,index,writeExactSidecarFile_eq hvalid hfits.named hdimension hnorm,hopen,?_⟩
  intro query allowed k
  rw [((ExactMapping.open_spec order _ _).2 index hopen).search_eq,
    rows_written hvalid.dimension hfits.rows hwide hfits.floats]

end roundTrip

/-- The one message in which the two indexes differ. -/
def sidecarWords (e : Error) : Error :=
  if e.code = .dimensionMismatch then
    ⟨.dimensionMismatch,"query dimension does not match dense sidecar"⟩
  else e

/-- A matrix in a file answers like one in memory, in its own words. -/
lemma search_sidecarWords {rows : List VectorRecord} {dimension : ℕ} {query : Vec}
    (h : ¬BetweenTolerances query) (allowed : List Bytes) (k : ℕ) :
    MappedExactIndex.search ⟨rows,dimension⟩ query allowed k =
      (NativeExactIndex.search ⟨rows,dimension⟩ query allowed k).mapError sidecarWords := by
  unfold BetweenTolerances at h
  rw [not_not] at h
  unfold MappedExactIndex.search NativeExactIndex.search
  rw [h]
  dsimp only
  split_ifs <;> rfl

/-- Within the limits of the format a sidecar is written, opened and searched like the index in
memory, and no search of an opened file leaves its matrix. -/
theorem exact_sidecar_agrees :
    (∀ order fingerprint source index, NativeExactIndex.build source = .ok index →
      Storable fingerprint source → (∀ row ∈ source, ¬BetweenTolerances row.vector) →
      (source = [] → order.Keeps 3) → ∃ file mapped,
        writeExactSidecarFile fingerprint source = .ok file ∧
        ExactMapping.open order file fingerprint = .ok mapped ∧
        ∀ query allowed k, ¬BetweenTolerances query → mapped.search query allowed k =
          Stop.lift ((index.search query allowed k).mapError sidecarWords)) ∧
    ∀ order file fingerprint, ExactMapping.open order file fingerprint ≠ .error .outside ∧
      ∀ mapped, ExactMapping.open order file fingerprint = .ok mapped →
        (∀ i < mapped.keys.length,
          rowStart mapped.dimension i + 4*mapped.dimension ≤ mapped.vectors.length) ∧
        ∀ query allowed k, mapped.search query allowed k ≠ .error .outside := by
  constructor
  · intro order fingerprint source index hbuild hfits halike hkeeps
    obtain ⟨hvalid,rfl⟩ := NativeExactIndex.build_eq_ok.mp hbuild
    have hnorm : ∀ row ∈ source, normalizedDouble row.vector = true := by
      intro row hrow
      have heq := not_not.mp (halike row hrow)
      rw [← heq]
      exact hvalid.normalized row hrow
    obtain ⟨file,mapped,hwrite,hopen,hsearch⟩ := open_written order hvalid hfits rfl hnorm hkeeps
    refine ⟨file,mapped,hwrite,hopen,?_⟩
    intro query allowed k hquery
    rw [hsearch,search_sidecarWords hquery]
  · intro order file fingerprint
    obtain ⟨hinside,hbounded⟩ := ExactMapping.open_spec order file fingerprint
    refine ⟨hinside,?_⟩
    intro mapped hopen
    have h := hbounded mapped hopen
    refine ⟨fun i hi => h.exists_row hi,?_⟩
    intro query allowed k houtside
    rw [h.search_eq] at houtside
    cases hsearch : MappedExactIndex.search ⟨mapped.rows,mapped.dimension⟩ query allowed k with
    | error e =>
      rw [hsearch] at houtside
      cases houtside
    | ok found =>
      rw [hsearch] at houtside
      cases houtside

section witness

/-- Three directions. -/
def compass : List VectorRecord :=
  [⟨ascii ['e'],[1,0]⟩,⟨ascii ['n'],[0,1]⟩,⟨ascii ['w'],[-1,0]⟩]

lemma compass_storable : Storable (ascii ['f']) compass := by
  have hfloat : ∀ x ∈ ([1,0,-1] : Vec), Single.IsFloat x := by
    intro x hx
    simp only [List.mem_cons,List.not_mem_nil,or_false] at hx
    obtain rfl | rfl | rfl := hx
    · exact ⟨0x3F800000,by decide,by decide +kernel⟩
    · exact ⟨0,by decide,by decide +kernel⟩
    · exact ⟨0xBF800000,by decide,by decide +kernel⟩
  have hdigits : ∀ row ∈ compass, ∀ x ∈ row.vector, x ∈ ([1,0,-1] : Vec) := by decide +kernel
  exact ⟨by decide,by decide,by decide,by decide,by decide,
    fun row hrow x hx => hfloat x (hdigits row hrow x hx)⟩

/-- The two nearest of all rows, and of a list with a key that is not there and one twice. -/
theorem exact_sidecar_agrees_compass : ∃ index file mapped,
    NativeExactIndex.build compass = .ok index ∧
    writeExactSidecarFile (ascii ['f']) compass = .ok file ∧
    ExactMapping.open Container.longestFirst file (ascii ['f']) = .ok mapped ∧
    mapped.search [1,0] [] 2 =
      .ok [⟨ascii ['e'],1,.cosine⟩,⟨ascii ['n'],0,.cosine⟩] ∧
    mapped.search [1,0] [ascii ['w'],ascii ['x'],ascii ['w']] 2 =
      .ok [⟨ascii ['w'],-1,.cosine⟩] := by
  have hbuild : NativeExactIndex.build compass = .ok ⟨compass,2⟩ := by decide +kernel
  have hrows : ∀ row ∈ compass, ¬BetweenTolerances row.vector := by
    unfold BetweenTolerances
    decide +kernel
  have hquery : ¬BetweenTolerances [1,0] := by
    unfold BetweenTolerances
    decide +kernel
  obtain ⟨file,mapped,hwrite,hopen,hsearch⟩ := exact_sidecar_agrees.1 Container.longestFirst
    (ascii ['f']) compass _ hbuild compass_storable hrows (fun hnone => by cases hnone)
  have hfound : NativeExactIndex.search ⟨compass,2⟩ [1,0] [] 2 =
      .ok [⟨ascii ['e'],1,.cosine⟩,⟨ascii ['n'],0,.cosine⟩] ∧
      NativeExactIndex.search ⟨compass,2⟩ [1,0] [ascii ['w'],ascii ['x'],ascii ['w']] 2 =
        .ok [⟨ascii ['w'],-1,.cosine⟩] := by
    decide +kernel
  refine ⟨_,file,mapped,hbuild,hwrite,hopen,?_,?_⟩
  · rw [hsearch _ _ _ hquery,hfound.1]
    rfl
  · rw [hsearch _ _ _ hquery,hfound.2]
    rfl

end witness

section limits

/-- A unit vector of `n+1` numbers. -/
def wideRow (n : ℕ) : VectorRecord := ⟨ascii ['a'],1::List.replicate n 0⟩

lemma dot_wideRow (n : ℕ) : dot (wideRow n).vector (wideRow n).vector = 1 := by
  rw [wideRow,dot,List.zipWith_cons_cons,List.zipWith_replicate,List.sum_cons,List.sum_replicate]
  simp

lemma length_wideRow (n : ℕ) : (wideRow n).vector.length = n+1 := by
  rw [wideRow,List.length_cons,List.length_replicate]

lemma validRows_wideRow (n : ℕ) : ValidRows [wideRow n] (n+1) := by
  have hnorm : normalized (wideRow n).vector = true := by
    rw [normalized,dot_wideRow,decide_eq_true_iff]
    refine ⟨List.cons_ne_nil _ _,?_⟩
    norm_num [kUnitTolerance]
  have hkey : (wideRow n).key ≠ [] := List.cons_ne_nil _ _
  refine ⟨?_,List.nodup_singleton _,?_,?_⟩
  · intro row hrow
    rwa [List.mem_singleton.mp hrow]
  · intro row hrow
    rw [List.mem_singleton.mp hrow,length_wideRow]
  · intro row hrow
    rw [List.mem_singleton.mp hrow]
    exact hnorm

lemma normalizedDouble_wideRow (n : ℕ) : normalizedDouble (wideRow n).vector = true := by
  rw [normalizedDouble,dot_wideRow,decide_eq_true_iff]
  refine ⟨List.cons_ne_nil _ _,?_⟩
  norm_num

lemma isFloat_wideRow (n : ℕ) : ∀ x ∈ (wideRow n).vector, Single.IsFloat x := by
  intro x hx
  rcases List.mem_cons.mp hx with rfl | hx
  · exact ⟨0x3F800000,by decide,by decide +kernel⟩
  · rw [List.eq_of_mem_replicate hx]
    exact ⟨0,by decide,by decide +kernel⟩

/-- A row of more numbers than the format takes is written to a file that cannot be opened. -/
lemma open_wideRow {n : ℕ} (hn : kMaxVectorDimension ≤ n) (hn' : n < 2*kMaxVectorDimension)
    (order : OffsetSort) : ∃ file,
      writeExactSidecarFile (ascii ['f']) [wideRow n] = .ok file ∧
      ExactMapping.open order file (ascii ['f']) =
        .error (.failed (corrupt "dense sidecar metadata is invalid")) := by
  have hvalid := validRows_wideRow n
  have hnorm : ∀ row ∈ [wideRow n], normalizedDouble row.vector = true := by
    intro row hrow
    rw [List.mem_singleton.mp hrow,normalizedDouble_wideRow]
  have hkey : ∀ row ∈ [wideRow n], row.key.length < 256^4 := by
    intro row hrow
    rw [List.mem_singleton.mp hrow]
    exact (by decide : (ascii ['a']).length < 256^4)
  have hname : (ascii ['f']).length < 256^4 := by decide
  have hone : [wideRow n].length ≤ kMaxChunks := (by decide : 1 ≤ kMaxChunks)
  have hone' : [wideRow n].length < 256^8 := (by decide : 1 < 256^8)
  have hlong : n+1 < 256^8 := by
    simp only [kMaxVectorDimension] at hn'
    omega
  set file : ExactSidecar := ⟨ascii ['f'],n+1,[wideRow n]⟩
  have hsize : file.container.serialize.length < 256^8 := length_container hname hone hn'
    hvalid.dimension hkey
  have hbefore : (order.sort file.container.written.sections).Pairwise SectionRange.Before :=
    container_before hvalid fun h => absurd h (List.cons_ne_nil _ _)
  obtain ⟨view,hview⟩ := open_container hsize hbefore (ascii ['f'])
  refine ⟨_,writeExactSidecarFile_eq hvalid (by decide) (length_wideRow n).symm hnorm,?_⟩
  rw [hview]
  unfold ExactMapping.openSections
  rw [whole_readMetadata hname hone' hlong (Nat.lt_succ_of_le hn)]

/-- Beyond the limit a source that the index in memory takes is not opened again, and a query of
another dimension is refused in other words. -/
theorem sidecar_disagrees :
    (∃ index, NativeExactIndex.build [wideRow kMaxVectorDimension] = .ok index ∧
      ∀ order file mapped,
        writeExactSidecarFile (ascii ['f']) [wideRow kMaxVectorDimension] = .ok file →
        ExactMapping.open order file (ascii ['f']) ≠ .ok mapped) ∧
    ∃ index file mapped, NativeExactIndex.build [wideRow 0] = .ok index ∧
      writeExactSidecarFile (ascii ['f']) [wideRow 0] = .ok file ∧
      ExactMapping.open Container.longestFirst file (ascii ['f']) = .ok mapped ∧
      mapped.search [1,0] [] 1 ≠ Stop.lift (index.search [1,0] [] 1) := by
  constructor
  · have hvalid := validRows_wideRow kMaxVectorDimension
    refine ⟨_,NativeExactIndex.build_eq_ok.mpr ⟨hvalid.firstDimension,rfl⟩,?_⟩
    intro order file mapped hwrite hopen
    obtain ⟨file',hwrite',hopen'⟩ := open_wideRow (le_refl _)
      (by decide : kMaxVectorDimension < 2*kMaxVectorDimension) order
    rw [hwrite'] at hwrite
    cases hwrite
    rw [hopen'] at hopen
    cases hopen
  · have hvalid := validRows_wideRow 0
    have hfits : Storable (ascii ['f']) [wideRow 0] := by
      refine ⟨by decide,by decide,by decide,by decide,by decide,?_⟩
      intro row hrow
      rw [List.mem_singleton.mp hrow]
      exact isFloat_wideRow 0
    have hnorm : ∀ row ∈ [wideRow 0], normalizedDouble row.vector = true := by
      intro row hrow
      rw [List.mem_singleton.mp hrow,normalizedDouble_wideRow]
    obtain ⟨file,mapped,hwrite,hopen,hsearch⟩ := open_written Container.longestFirst hvalid hfits
      rfl hnorm fun h => absurd h (List.cons_ne_nil _ _)
    refine ⟨_,file,mapped,NativeExactIndex.build_eq_ok.mpr ⟨hvalid.firstDimension,rfl⟩,hwrite,
      hopen,?_⟩
    rw [hsearch]
    decide +kernel

end limits

end RagRuntime.Dense
