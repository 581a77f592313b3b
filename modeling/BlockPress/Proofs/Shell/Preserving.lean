import BlockPress.Proofs.Shell.Commands

/-!
# Packed files give back their bytes

A file that was compressed into another one is there again when that one is decompressed to where nothing
is.  The output is emptied before the input is read, so **a file that was compressed onto itself is lost**
(`overwritten_lost`): the frame is sound, but it is the frame of no bytes.

Main statement: **what was compressed comes back, but for a file that was its own output**
(`unpacked_of_packed`).
-/

namespace BlockPress.Shell

open Session

/-- A path leads to a place where nothing is, and a file can come to be there. -/
structure FileSystem.Fresh (files : FileSystem) (path : String) (place : Place) : Prop where
  /-- The path does not ask for a directory. -/
  plain : Path.endsInSlash path = false
  /-- The path leads to the place. -/
  located : files.locate path = .ok place
  /-- Nothing is there. -/
  vacant : files.lookup? place = none

namespace FileSystem.Fresh

variable {files : FileSystem} {path : String} {place p : Place}

theorem ne_directory (h : files.Fresh path place) : files.lookup? place ≠ some .directory := by
  rw [h.vacant]
  exact (Option.some_ne_none _).symm

theorem holds_eq_false (h : files.Fresh path place) : files.holds path = false :=
  FileSystem.holds_eq_false h.located h.vacant

/-- A file can be created where nothing is. -/
theorem create_eq (h : files.Fresh path place) :
    files.create path = .ok (place, files.put place (.file .empty)) :=
  create_eq_ok_iff.mpr ⟨h.plain, h.located, h.ne_directory, rfl⟩

/-- Where nothing is, nothing is when a file was put elsewhere. -/
theorem put (h : files.Fresh path place) (hp : files.lookup? p ≠ some .directory) (hne : place ≠ p)
    (data : ByteArray) : (files.put p (.file data)).Fresh path place where
  plain := h.plain
  located := (locate_put hp data).mpr h.located
  vacant := (lookup?_put_of_ne hp _ hne).trans h.vacant

/-- Nothing can be read where nothing is. -/
theorem ne_of_read (h : files.Fresh path place) {data : ByteArray} (hread : files.read p = .ok data) :
    place ≠ p := by
  rintro rfl
  rw [FileSystem.read, h.vacant] at hread
  cases hread

end FileSystem.Fresh

section Runs

variable [BlockHash]

/-! ## Compressing -/

/-- A file is compressed if its frame may be and can be put where the output path leads. -/
theorem exists_compress {o : CompressOptions} {s : Session} {input output : Place} {data : ByteArray}
    (free : s.files.Free o.outputPath o.force) (valid : o.config.Valid)
    (hfind : s.files.find o.input = .ok input) (hread : s.files.read input = .ok data)
    (hslash : Path.endsInSlash o.outputPath = false)
    (hlocate : s.files.locate o.outputPath = .ok output)
    (hne : s.files.lookup? output ≠ some .directory) : ∃ s', compress o s = .ok () s' := by
  have hcreate : s.files.create o.outputPath = .ok (output, s.files.put output (.file .empty)) :=
    FileSystem.create_eq_ok_iff.mpr ⟨hslash, hlocate, hne, rfl⟩
  have hcompresses := compresses_compress o s
  generalize compress o s = x at hcompresses ⊢
  cases hcompresses with
  | taken held careful => exact absurd ((free held).symm.trans careful) Bool.noConfusion
  | unsound _ invalid => exact absurd valid invalid
  | unopened _ _ hfind' => cases hfind.symm.trans hfind'
  | barred _ _ _ hcreate' => cases hcreate.symm.trans hcreate'
  | unreadable _ _ hfind' hcreate' hread' =>
    cases hfind.symm.trans hfind'
    cases hcreate.symm.trans hcreate'
    by_cases heq : input = output
    · subst heq
      cases (FileSystem.read_put_self hne _).symm.trans hread'
    · rw [FileSystem.read_put_of_ne hne _ heq] at hread'
      cases hread.symm.trans hread'
  | packed => exact ⟨_, rfl⟩

/-- **Compressing puts the frame of the input where the output path leads**, or the frame of no bytes if
the input is there itself. -/
theorem packed_of_compress {o : CompressOptions} {s s' : Session} {input : Place} {data : ByteArray}
    (hfind : s.files.find o.input = .ok input) (hread : s.files.read input = .ok data)
    (h : compress o s = .ok () s') : ∃ output frame, o.config.Valid ∧
      Path.endsInSlash o.outputPath = false ∧ s.files.locate o.outputPath = .ok output ∧
      s.files.lookup? output ≠ some .directory ∧
      Frame.pack (if output = input then .empty else data) o.config = .ok frame ∧
      s'.files = s.files.put output (.file frame) := by
  have hcompresses := compresses_compress o s
  rw [h] at hcompresses
  cases hcompresses with
  | packed _ valid hfind' hcreate hread' hpack printed =>
    rename_i input' output files data' frame
    obtain ⟨hslash, hlocate, hne, rfl⟩ := FileSystem.create_eq_ok_iff.mp hcreate
    obtain rfl : input = input' := Except.ok.inj (hfind.symm.trans hfind')
    have hdata : data' = if output = input then .empty else data := by
      split
      · next heq =>
        subst heq
        rw [FileSystem.read_put_self hne] at hread'
        exact (Except.ok.inj hread').symm
      · next hne' =>
        rw [FileSystem.read_put_of_ne hne _ (Ne.symm hne'), hread] at hread'
        exact (Except.ok.inj hread').symm
    exact ⟨output, frame, valid, hslash, hlocate, hne, hdata ▸ hpack, FileSystem.put_put _ _ _ _⟩

/-! ## Decompressing -/

/-- A reader of frames is found at a frame that was packed, and decodes its data. -/
theorem exists_findFrame {files : FileSystem} {path : String} {input : Place} {config : Config}
    {data frame : ByteArray} (hconfig : config.Valid) (hpack : Frame.pack data config = .ok frame)
    (hfind : files.find path = .ok input) (hread : files.read input = .ok frame) :
    ∃ reader reader', files.findFrame path = .ok (input, reader) ∧
      decode reader = (reader', data, .ok ()) := by
  obtain ⟨frame', reader, source, hpack', hstart, hdue⟩ := Frame.exists_due data hconfig
  obtain rfl : frame = frame' := Except.ok.inj (hpack.symm.trans hpack')
  obtain ⟨reader', hall⟩ := hdue.readAll_eq hconfig .empty
  rw [foldl_cut hconfig.1, ByteArray.empty_append, ByteArray.extract_zero_size] at hall
  refine ⟨reader, reader', ?_, ?_⟩
  · rw [FileSystem.findFrame, hfind]
    dsimp only
    rw [hread]
    dsimp only
    rw [hstart]
  · rw [decode, hall]

/-- **Decompressing a frame puts its data where nothing was.** -/
theorem unpacked_of_decompress {o : DecompressOptions} {s : Session} {input place : Place}
    {config : Config} {data frame : ByteArray} (hconfig : config.Valid)
    (hpack : Frame.pack data config = .ok frame) (hfind : s.files.find o.input = .ok input)
    (hread : s.files.read input = .ok frame) (hfresh : s.files.Fresh o.outputPath place) :
    ∃ s', decompress o s = .ok () s' ∧ s'.files = s.files.put place (.file data) := by
  obtain ⟨reader, reader', hframe, hdecode⟩ := exists_findFrame hconfig hpack hfind hread
  have hcreate := hfresh.create_eq
  have hdecoding : decoding input place reader = (data, .ok ()) := by
    rw [decoding, if_neg (hfresh.ne_of_read hread), hdecode]
  have hdecompresses := decompresses_decompress o s
  generalize decompress o s = x at hdecompresses ⊢
  cases hdecompresses with
  | taken held => exact absurd (hfresh.holds_eq_false.symm.trans held) Bool.noConfusion
  | unusable _ hframe' => cases hframe.symm.trans hframe'
  | barred _ _ hcreate' => cases hcreate.symm.trans hcreate'
  | broken _ hframe' hcreate' hdecoding' =>
    cases hframe.symm.trans hframe'
    cases hcreate.symm.trans hcreate'
    cases hdecoding.symm.trans hdecoding'
  | unpacked _ hframe' hcreate' hdecoding' printed =>
    cases hframe.symm.trans hframe'
    cases hcreate.symm.trans hcreate'
    cases hdecoding.symm.trans hdecoding'
    exact ⟨_, rfl, FileSystem.put_put _ _ _ _⟩

/-! ## Runs -/

variable {o : CompressOptions} {files : FileSystem} {s : Session} {input : Place} {data : ByteArray}

/-- Compressing leaves other places free. -/
theorem FileSystem.Fresh.compress {path : String} {place : Place} (hfresh : files.Fresh path place)
    (hfind : files.find o.input = .ok input) (hread : files.read input = .ok data)
    (h : Shell.compress o { files } = .ok () s) (hplace : files.locate o.outputPath ≠ .ok place) :
    s.files.Fresh path place := by
  obtain ⟨output, frame, -, -, hlocate, hne, -, hs⟩ := packed_of_compress hfind hread h
  rw [hs]
  refine hfresh.put hne ?_ frame
  rintro rfl
  exact hplace hlocate

/-- What compressing left can be decompressed. -/
theorem unpacked_of_compress (hfind : files.find o.input = .ok input)
    (hread : files.read input = .ok data) (h : compress o { files } = .ok () s) :
    ∃ output, files.locate o.outputPath = .ok output ∧ ∀ (d : DecompressOptions) (place : Place),
      d.input = o.outputPath → s.files.Fresh d.outputPath place →
        (runRequest (.decompress d) s.files).1.exit = 0 ∧
        (runRequest (.decompress d) s.files).2.read place =
          .ok (if output = input then .empty else data) := by
  obtain ⟨output, frame, hconfig, hslash, hlocate, hne, hpack, hs⟩ :=
    packed_of_compress (s := { files }) hfind hread h
  refine ⟨output, hlocate, fun d place hinput hfresh => ?_⟩
  have hfind' : s.files.find d.input = .ok output := by
    rw [hs, hinput]
    exact FileSystem.find_eq_ok hslash ((FileSystem.locate_put hne _).mpr hlocate)
      (FileSystem.lookup?_put_self hne _)
  have hread' : s.files.read output = .ok frame := hs ▸ FileSystem.read_put_self hne _
  obtain ⟨s', hdecompress, hs'⟩ := unpacked_of_decompress (s := { files := s.files }) hconfig hpack
    hfind' hread' hfresh
  obtain ⟨hexit, hfiles⟩ := runRequest_of_ok (.decompress d) hdecompress
  refine ⟨hexit, ?_⟩
  rw [hfiles, hs']
  exact FileSystem.read_put_self hfresh.ne_directory _

/-- **What was compressed comes back, but for a file that was its own output.**  If compressing a file
exits with 0, decompressing the output to where nothing is exits with 0 as well, and leaves the bytes there
that the file held before; if the output was the file itself, it leaves none. -/
theorem unpacked_of_packed (o : CompressOptions) {files : FileSystem} {input : Place}
    {data : ByteArray} (hfind : files.find o.input = .ok input)
    (hread : files.read input = .ok data) (hexit : (runRequest (.compress o) files).1.exit = 0) :
    ∃ output, files.locate o.outputPath = .ok output ∧ ∀ (d : DecompressOptions) (place : Place),
      d.input = o.outputPath → (runRequest (.compress o) files).2.Fresh d.outputPath place →
        (runRequest (.decompress d) (runRequest (.compress o) files).2).1.exit = 0 ∧
        (runRequest (.decompress d) (runRequest (.compress o) files).2).2.read place =
          .ok (if output = input then .empty else data) := by
  obtain ⟨s, hcompress, hfiles⟩ := exists_perform_of_exit hexit
  rw [hfiles]
  exact unpacked_of_compress hfind hread hcompress

end Runs

/-- A file that is compressed into another one, and that one into a third. -/
theorem unpacked_of_packed_three :
    let files : FileSystem := ⟨[(["a"], .file ⟨#[98, 97, 110]⟩)]⟩
    let packed := runRequest (.compress { input := "a", output := some "b" }) files
    let unpacked := runRequest (.decompress { input := "b", output := some "c" }) packed.2
    packed.1.exit = 0 ∧ unpacked.1.exit = 0 ∧ unpacked.2.read ["c"] = .ok ⟨#[98, 97, 110]⟩ := by
  intro files packed unpacked
  let o : CompressOptions := { input := "a", output := some "b" }
  let d : DecompressOptions := { input := "b", output := some "c" }
  have hpacked : packed = runRequest (.compress o) files := rfl
  have hunpacked : unpacked = runRequest (.decompress d) packed.2 := rfl
  have hfind : files.find "a" = .ok ["a"] := rfl
  have hread : files.read ["a"] = .ok ⟨#[98, 97, 110]⟩ := rfl
  have hfresh₀ : files.Fresh "b" ["b"] := ⟨rfl, rfl, rfl⟩
  have hlocate : files.locate "b" = .ok ["b"] := hfresh₀.located
  have hfree : files.Free "b" o.force := fun h =>
    absurd (hfresh₀.holds_eq_false.symm.trans h) Bool.noConfusion
  obtain ⟨s, hcompress⟩ : ∃ s, compress o { files } = .ok () s :=
    exists_compress hfree (by decide) hfind hread hfresh₀.plain hlocate hfresh₀.ne_directory
  obtain ⟨hexit, hfiles⟩ := runRequest_of_ok (.compress o) hcompress
  have hfresh : files.Fresh "c" ["c"] := ⟨rfl, rfl, rfl⟩
  have hfresh' : (runRequest (.compress o) files).2.Fresh "c" ["c"] := by
    rw [hfiles]
    exact hfresh.compress hfind hread hcompress fun h => absurd (hlocate.symm.trans h) (by decide)
  obtain ⟨output, hlocate', hback⟩ := unpacked_of_packed o hfind hread hexit
  obtain rfl : ["b"] = output := Except.ok.inj (hlocate.symm.trans hlocate')
  obtain ⟨hexit', hread'⟩ := hback d ["c"] rfl hfresh'
  rw [if_neg (by decide), ← hpacked, ← hunpacked] at hread'
  rw [← hpacked, ← hunpacked] at hexit'
  exact ⟨hexit, hexit', hread'⟩

/-- **A file that was compressed onto itself is lost**, though nothing fails. -/
theorem overwritten_lost :
    let files : FileSystem := ⟨[(["a"], .file ⟨#[98]⟩)]⟩
    let packed := run ["compress", "a", "-o", "a", "-f"] files
    let unpacked := run ["decompress", "a", "-o", "b"] packed.2
    files.read ["a"] = .ok ⟨#[98]⟩ ∧ packed.1.exit = 0 ∧ packed.2.Fresh "b" ["b"] ∧
      unpacked.1.exit = 0 ∧ unpacked.2.read ["b"] = .ok .empty := by
  intro files packed unpacked
  let o : CompressOptions := { input := "a", output := some "a", force := true }
  let d : DecompressOptions := { input := "a", output := some "b" }
  have hpacked : packed = runRequest (.compress o) files := run_of_request rfl files
  have hunpacked : unpacked = runRequest (.decompress d) packed.2 := run_of_request rfl packed.2
  have hfind : files.find "a" = .ok ["a"] := rfl
  have hread : files.read ["a"] = .ok ⟨#[98]⟩ := rfl
  have hslash : Path.endsInSlash "a" = false := rfl
  have hlocate : files.locate "a" = .ok ["a"] := rfl
  obtain ⟨s, hcompress⟩ : ∃ s, compress o { files } = .ok () s :=
    exists_compress (fun _ => rfl) (by decide) hfind hread hslash hlocate nofun
  obtain ⟨hexit, hfiles⟩ := runRequest_of_ok (.compress o) hcompress
  have hfresh : files.Fresh "b" ["b"] := ⟨rfl, rfl, rfl⟩
  have hfresh' : s.files.Fresh "b" ["b"] :=
    hfresh.compress hfind hread hcompress fun h => absurd (hlocate.symm.trans h) (by decide)
  obtain ⟨output, hlocate', hback⟩ := unpacked_of_compress hfind hread hcompress
  obtain rfl : ["a"] = output := Except.ok.inj (hlocate.symm.trans hlocate')
  obtain ⟨hexit', hread'⟩ := hback d ["b"] rfl hfresh'
  rw [if_pos rfl] at hread'
  rw [← hpacked] at hexit hfiles
  rw [← hfiles] at hfresh' hexit' hread'
  rw [← hunpacked] at hexit' hread'
  exact ⟨hread, hexit, hfresh', hexit', hread'⟩

end BlockPress.Shell
