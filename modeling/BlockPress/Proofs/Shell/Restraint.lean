import BlockPress.Proofs.Shell.Commands

/-!
# What a run may change

A run writes one file at most, and that at the output path of its request (`files_perform`).  It looks for
what is there, and whether there is something to write, before it opens the output, so a run that fails on
either changes nothing at all.

Main statement: **a run changes no more than its output, and nothing where it may not or could not write
it** (`run_restrained`).
-/

namespace BlockPress.Shell

open Session

namespace Request

/-- Whether a file at the output path may be overwritten. -/
def force : Request → Bool
  | compress o => o.force
  | decompress o => o.force
  | test _ => false
  | info _ _ => false

/-- There is nothing to be done: no stream has the settings of the request, its input cannot be opened,
or there is no frame in it, up to the first block. -/
def Refused (files : FileSystem) : Request → Prop
  | compress o => ¬ o.config.Valid ∨ ∃ fault, files.find o.input = .error fault
  | decompress o => ∃ fault, files.findFrame o.input = .error fault
  | test input => ∃ fault, files.findFrame input = .error fault
  | info input _ => ∃ fault, files.findFrame input = .error fault

end Request

/-! ## The file that is written -/

/-- Files are the same but for one that was put to where a path leads. -/
def Writes (path : String) (before after : FileSystem) : Prop :=
  ∃ place data, before.locate path = .ok place ∧ before.lookup? place ≠ some .directory ∧
    after = before.put place (.file data)

/-- What fills a file that was created takes the place of what was there. -/
theorem writes_of_create {path : String} {before files : FileSystem} {place : Place}
    (h : before.create path = .ok (place, files)) (data : ByteArray) :
    Writes path before (files.put place (.file data)) := by
  obtain ⟨-, hlocate, hne, rfl⟩ := FileSystem.create_eq_ok_iff.mp h
  exact ⟨place, data, hlocate, hne, FileSystem.put_put _ _ _ _⟩

section Runs

variable [BlockHash]

theorem Compresses.files {o : CompressOptions} {s : Session} {x : EStateM.Result Fault Session Unit}
    (h : Compresses o s x) : (leftBy x).files = s.files ∨ Writes o.outputPath s.files (leftBy x).files := by
  cases h with
  | taken | unsound | unopened | barred => exact .inl rfl
  | unreadable _ _ _ hcreate | packed _ _ _ hcreate => exact .inr (writes_of_create hcreate _)

theorem Decompresses.files {o : DecompressOptions} {s : Session}
    {x : EStateM.Result Fault Session Unit} (h : Decompresses o s x) :
    (leftBy x).files = s.files ∨ Writes o.outputPath s.files (leftBy x).files := by
  cases h with
  | taken | unusable | barred => exact .inl rfl
  | broken _ _ hcreate | unpacked _ _ hcreate => exact .inr (writes_of_create hcreate _)

/-- **A request writes one file at most, at its output path.** -/
theorem files_perform (request : Request) (s : Session) :
    (leftBy (perform request s)).files = s.files ∨ ∃ path, request.outputPath? = some path ∧
      Writes path s.files (leftBy (perform request s)).files := by
  cases request with
  | compress o =>
    exact (compresses_compress o s).files.imp_right fun h => ⟨_, rfl, h⟩
  | decompress o =>
    exact (decompresses_decompress o s).files.imp_right fun h => ⟨_, rfl, h⟩
  | test input => exact .inl (quiet_test input s)
  | info input json => exact .inl (quiet_info input json s)

/-! ## Requests that fail before they write -/

/-- A path that is taken is left as it is. -/
theorem Compresses.of_taken {o : CompressOptions} {s : Session} {x : EStateM.Result Fault Session Unit}
    (h : Compresses o s x) (held : s.files.holds o.outputPath = true) (careful : o.force = false) :
    x = .error (.alreadyExists o.outputPath) s := by
  cases h with
  | taken => rfl
  | unsound free | unopened free | barred free | unreadable free | packed free =>
    exact absurd ((free held).symm.trans careful) Bool.noConfusion

theorem Decompresses.of_taken {o : DecompressOptions} {s : Session}
    {x : EStateM.Result Fault Session Unit} (h : Decompresses o s x)
    (held : s.files.holds o.outputPath = true) (careful : o.force = false) :
    x = .error (.alreadyExists o.outputPath) s := by
  cases h with
  | taken => rfl
  | unusable free | barred free | broken free | unpacked free =>
    exact absurd ((free held).symm.trans careful) Bool.noConfusion

theorem perform_taken {request : Request} {path : String} {s : Session}
    (hpath : request.outputPath? = some path) (held : s.files.holds path = true)
    (careful : request.force = false) : perform request s = .error (.alreadyExists path) s := by
  cases request with
  | compress o =>
    obtain rfl : o.outputPath = path := Option.some.inj hpath
    exact (compresses_compress o s).of_taken held careful
  | decompress o =>
    obtain rfl : o.outputPath = path := Option.some.inj hpath
    exact (decompresses_decompress o s).of_taken held careful
  | test | info => cases hpath

/-- Nothing is compressed with settings that no stream has, or without an input. -/
theorem Compresses.of_refused {o : CompressOptions} {s : Session}
    {x : EStateM.Result Fault Session Unit} (h : Compresses o s x)
    (hrefused : ¬ o.config.Valid ∨ ∃ fault, s.files.find o.input = .error fault) :
    ∃ fault, x = .error fault s := by
  cases h with
  | taken | unsound | unopened | barred => exact ⟨_, rfl⟩
  | unreadable _ valid hfind | packed _ valid hfind =>
    obtain hinvalid | ⟨fault, hfault⟩ := hrefused
    · exact absurd valid hinvalid
    · cases hfind.symm.trans hfault

/-- Nothing is decompressed without a frame. -/
theorem Decompresses.of_refused {o : DecompressOptions} {s : Session}
    {x : EStateM.Result Fault Session Unit} (h : Decompresses o s x)
    (hrefused : ∃ fault, s.files.findFrame o.input = .error fault) : ∃ fault, x = .error fault s := by
  obtain ⟨fault, hfault⟩ := hrefused
  cases h with
  | taken | unusable | barred => exact ⟨_, rfl⟩
  | broken _ hframe | unpacked _ hframe => cases hframe.symm.trans hfault

/-- **Where there is nothing to be done, nothing is written.** -/
theorem perform_refused {request : Request} {s : Session} (h : request.Refused s.files) :
    ∃ fault s', perform request s = .error fault s' ∧ s'.files = s.files := by
  cases request with
  | compress o =>
    obtain ⟨fault, hfault⟩ := (compresses_compress o s).of_refused h
    exact ⟨fault, s, hfault, rfl⟩
  | decompress o =>
    obtain ⟨fault, hfault⟩ := (decompresses_decompress o s).of_refused h
    exact ⟨fault, s, hfault, rfl⟩
  | test input =>
    obtain ⟨fault, hfault⟩ := h
    refine ⟨fault, { s with printed := s.printed ++ ("Testing " ++ input) ++ "\n" }, ?_, rfl⟩
    rw [perform, test, bind_apply, print]
    dsimp only
    rw [openFrame_bind]
    dsimp only
    rw [hfault]
  | info input json =>
    obtain ⟨fault, hfault⟩ := h
    refine ⟨fault, s, ?_, rfl⟩
    rw [perform, info, openFrame_bind, hfault]

/-! ## Runs -/

/-- What a request may change: `left` is what it leaves of the files, and how it ends. -/
structure Restrained (request : Request) (files : FileSystem) (left : Outcome × FileSystem) : Prop where
  /-- A place where anything changed is the one that the output path names and leads to; no directory was
  there, and a file is there now. -/
  changed : ∀ place, left.2.lookup? place ≠ files.lookup? place →
    ∃ path, request.outputPath? = some path ∧ place = Place.ofPath path ∧
      files.locate path = .ok place ∧ files.lookup? place ≠ some .directory ∧
      ∃ data, left.2.lookup? place = some (.file data)
  /-- Nothing changes without an output path. -/
  outputless : request.outputPath? = none → left.2 = files
  /-- Nothing changes if the output path is taken and may not be overwritten, and the run fails. -/
  taken : ∀ path, request.outputPath? = some path → files.holds path = true → request.force = false →
    left.2 = files ∧ left.1.exit = 1
  /-- Nothing changes where there is nothing to be done, and the run fails. -/
  refused : request.Refused files → left.2 = files ∧ left.1.exit = 1

theorem restrained_runRequest (request : Request) (files : FileSystem) :
    Restrained request files (runRequest request files) := by
  have hfiles := files_perform request { files }
  rw [← files_runRequest] at hfiles
  refine {
    changed := fun place hchanged => ?changed
    outputless := fun hnone => ?outputless
    taken := fun path hpath held careful => (runRequest_of_error (perform_taken hpath held careful)).symm
    refused := fun hrefused => ?refused }
  case changed =>
    obtain hsame | ⟨path, hpath, place', data, hlocate, hne, hput⟩ := hfiles
    · exact absurd (congrArg (·.lookup? place) hsame) hchanged
    · rw [hput] at hchanged ⊢
      obtain rfl : place = place' := by
        by_contra hplace
        exact hchanged (FileSystem.lookup?_put_of_ne hne _ hplace)
      exact ⟨path, hpath, FileSystem.eq_ofPath_of_locate hlocate, hlocate, hne, data,
        FileSystem.lookup?_put_self hne _⟩
  case outputless =>
    obtain hsame | ⟨path, hpath, -⟩ := hfiles
    · exact hsame
    · cases hnone.symm.trans hpath
  case refused =>
    obtain ⟨fault, s', hperform, hs'⟩ := perform_refused (s := { files }) hrefused
    obtain ⟨hexit, hfiles'⟩ := runRequest_of_error hperform
    exact ⟨hfiles'.trans hs', hexit⟩

/-- **A run changes no more than its output, and nothing where it may not or could not write it**
(`Restrained`), for every request and so for every command line that is read as one.  Nothing changes if
the request has no output path, if that is taken and may not be overwritten, or if the block size is not one
that a stream can have, the input cannot be opened, or there is no frame in it up to its first block; in the
last four cases the run fails. -/
theorem run_restrained (request : Request) (files : FileSystem) :
    Restrained request files (runRequest request files) ∧
      ∀ words, Request.ofWords words = .ok request → Restrained request files (run words files) := by
  have h := restrained_runRequest request files
  refine ⟨h, fun words hwords => ?_⟩
  rw [run_of_request hwords]
  exact h

end Runs

/-- Packing `a` changes no more than `a.obsc`; it does not overwrite `b` unasked, nor with blocks of no
bytes; and one byte is not unpacked. -/
theorem run_restrained_four :
    let files : FileSystem := ⟨[(["a"], .file ⟨#[1]⟩), (["b"], .file ⟨#[2]⟩)]⟩
    (∀ place, (run ["compress", "a"] files).2.lookup? place ≠ files.lookup? place →
      place = ["a.obsc"]) ∧
    (run ["compress", "a", "-o", "b"] files).2 = files ∧
    (run ["compress", "-b", "0", "-f", "a", "-o", "b"] files).2 = files ∧
    (run ["decompress", "-f", "a", "-o", "b"] files).2 = files := by
  intro files
  have hplain : Request.ofWords ["compress", "a"] = .ok (.compress { input := "a" }) := rfl
  have htaken : Request.ofWords ["compress", "a", "-o", "b"] =
      .ok (.compress { input := "a", output := some "b" }) := rfl
  have hsize : Request.ofWords ["compress", "-b", "0", "-f", "a", "-o", "b"] =
      .ok (.compress { input := "a", output := some "b", config := ⟨0, true⟩, force := true }) := by
    decide +kernel
  have hframe : Request.ofWords ["decompress", "-f", "a", "-o", "b"] =
      .ok (.decompress { input := "a", output := some "b", force := true }) := rfl
  have hchanged := ((run_restrained _ files).2 _ hplain).changed
  have hheld := ((run_restrained _ files).2 _ htaken).taken
  have hinvalid := ((run_restrained _ files).2 _ hsize).refused
  have hbroken := ((run_restrained _ files).2 _ hframe).refused
  refine ⟨fun place h => ?_, (hheld "b" rfl rfl rfl).1, (hinvalid (.inl (by decide))).1,
    (hbroken ⟨.stream (.endOfInput 10), rfl⟩).1⟩
  obtain ⟨path, hpath, rfl, -⟩ := hchanged place h
  cases hpath
  rfl

end BlockPress.Shell
