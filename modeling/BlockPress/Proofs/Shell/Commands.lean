import BlockPress.Proofs.Runs
import BlockPress.Proofs.Shell.FileSystem
import BlockPress.Proofs.Shell.Packing
import BlockPress.Shell.Run

/-!
# What commands do

Everything that compressing and decompressing can come to, with the checks that lead there in their order
(`Compresses`, `Decompresses`).  Testing and telling about a frame change no file (`quiet_test`,
`quiet_info`).
-/

namespace BlockPress.Shell

open Session

variable {α β : Type}

/-! ## One command after the other -/

theorem bind_apply (c : Command α) (k : α → Command β) (s : Session) : (c >>= k) s =
    match c s with
    | .ok a s => k a s
    | .error fault s => .error fault s := by
  change EStateM.bind c k s = _
  rw [EStateM.bind]
  cases c s <;> rfl

/-- A command that changes no file. -/
def Quiet (c : Command α) : Prop := ∀ s, (leftBy (c s)).files = s.files

theorem Quiet.bind {c : Command α} {k : α → Command β} (hc : Quiet c) (hk : ∀ a, Quiet (k a)) :
    Quiet (c >>= k) := by
  intro s
  have hs := hc s
  rw [bind_apply]
  cases hresult : c s with
  | ok a s' => exact (hk a s').trans (by rw [← hs, hresult]; rfl)
  | error fault s' => rw [← hs, hresult]; rfl

theorem quiet_pure (a : α) : Quiet (pure a) := fun _ => rfl

theorem quiet_print (line : String) : Quiet (print line) := fun _ => rfl

theorem quiet_fail (fault : Fault) : Quiet (fail fault : Command α) := fun _ => rfl

theorem quiet_openInput (path : String) : Quiet (openInput path) := by
  intro s
  rw [openInput]
  split <;> rfl

theorem quiet_forM_print (lines : List String) : Quiet (lines.forM print) := by
  induction lines with
  | nil => exact quiet_pure _
  | cons line lines ih => exact (quiet_print line).bind fun _ => ih

theorem quiet_openFrame (input : Place) : Quiet (openFrame input) := by
  refine Quiet.bind (fun _ => rfl) fun content => ?_
  cases content with
  | error fault => exact quiet_fail _
  | ok data =>
    dsimp only
    split
    · exact quiet_pure _
    · exact quiet_fail _

theorem quiet_test [BlockHash] (path : String) : Quiet (test path) := by
  refine (quiet_print _).bind fun _ => (quiet_openInput path).bind fun input =>
    (quiet_openFrame input).bind fun reader => ?_
  split
  · exact (quiet_print _).bind fun _ => quiet_fail _
  · exact quiet_print _

theorem quiet_info [BlockHash] (path : String) (json : Bool) : Quiet (info path json) := by
  refine (quiet_openInput path).bind fun input => (quiet_openFrame input).bind fun reader => ?_
  split
  · exact quiet_fail _
  · dsimp only
    split
    · exact quiet_print _
    · exact quiet_forM_print _

/-! ## Frames in files -/

/-- The frame that a path leads to: its place, and a reader at its first block. -/
def FileSystem.findFrame (files : FileSystem) (path : String) : Except Fault (Place × FrameReader) :=
  match files.find path with
  | .error fault => .error (.file fault)
  | .ok input =>
    match files.read input with
    | .error fault => .error (.stream (.io fault.message))
    | .ok data =>
      match FrameReader.start { data } with
      | .ok reader _ => .ok (input, reader)
      | .error failure _ => .error (.stream failure)

theorem openFrame_bind (path : String) (k : Place → FrameReader → Command α) (s : Session) :
    (openInput path >>= fun input => openFrame input >>= k input) s =
      match s.files.findFrame path with
      | .ok (input, reader) => k input reader s
      | .error fault => .error fault s := by
  rw [bind_apply, openInput, FileSystem.findFrame]
  cases s.files.find path with
  | error fault => rfl
  | ok input =>
    dsimp only
    rw [bind_apply, openFrame, bind_apply, content]
    cases s.files.read input with
    | error fault => rfl
    | ok data =>
      dsimp only
      cases FrameReader.start { data } with
      | ok reader => rfl
      | error failure => rfl

/-! ## Commands that write -/

/-- Nothing is where an output path leads, or it may be overwritten. -/
def FileSystem.Free (files : FileSystem) (path : String) (force : Bool) : Prop :=
  files.holds path = true → force = true

/-- An output path is taken or free. -/
theorem checkFree_cases (path : String) (force : Bool) (s : Session) :
    (s.files.holds path = true ∧ force = false ∧
      checkFree path force s = .error (.alreadyExists path) s) ∨
    (s.files.Free path force ∧ checkFree path force s = .ok () s) := by
  rw [checkFree, FileSystem.Free]
  cases s.files.holds path with
  | false => exact .inr ⟨nofun, rfl⟩
  | true =>
    cases force with
    | false => exact .inl ⟨rfl, rfl, rfl⟩
    | true => exact .inr ⟨fun _ => rfl, rfl⟩

variable [BlockHash]

/-- What compressing can come to. -/
inductive Compresses (o : CompressOptions) (s : Session) : EStateM.Result Fault Session Unit → Prop where
  /-- The output path is taken. -/
  | taken (held : s.files.holds o.outputPath = true) (careful : o.force = false) :
    Compresses o s (.error (.alreadyExists o.outputPath) s)
  /-- No stream has such settings. -/
  | unsound (free : s.files.Free o.outputPath o.force) (invalid : ¬ o.config.Valid) :
    Compresses o s (.error (.stream (.badBlockSize o.config.blockSize Config.maxBlockSize)) s)
  /-- The input cannot be opened. -/
  | unopened (free : s.files.Free o.outputPath o.force) (valid : o.config.Valid) {fault : FileFault}
    (hfind : s.files.find o.input = .error fault) :
    Compresses o s (.error (.file fault) s)
  /-- The output cannot be opened. -/
  | barred (free : s.files.Free o.outputPath o.force) (valid : o.config.Valid) {input : Place}
    (hfind : s.files.find o.input = .ok input) {fault : FileFault}
    (hcreate : s.files.create o.outputPath = .error fault) :
    Compresses o s (.error (.file fault) s)
  /-- The input cannot be read, and the output holds no more than the header. -/
  | unreadable (free : s.files.Free o.outputPath o.force) (valid : o.config.Valid) {input : Place}
    (hfind : s.files.find o.input = .ok input) {output : Place} {files : FileSystem}
    (hcreate : s.files.create o.outputPath = .ok (output, files)) {fault : FileFault}
    (hread : files.read input = .error fault) :
    Compresses o s (.error (.file fault) { s with
      files := files.put output (.file ⟨(FrameHeader.ofConfig o.config).toBytes.toArray⟩) })
  /-- The output holds the frame of what the input holds once the output has been emptied. -/
  | packed (free : s.files.Free o.outputPath o.force) (valid : o.config.Valid) {input : Place}
    (hfind : s.files.find o.input = .ok input) {output : Place} {files : FileSystem}
    (hcreate : s.files.create o.outputPath = .ok (output, files)) {data frame : ByteArray}
    (hread : files.read input = .ok data) (hpack : Frame.pack data o.config = .ok frame)
    (printed : String) :
    Compresses o s (.ok () ⟨files.put output (.file frame), printed⟩)

theorem compresses_compress (o : CompressOptions) (s : Session) : Compresses o s (compress o s) := by
  rw [compress, bind_apply]
  obtain ⟨held, careful, hcheck⟩ | ⟨free, hcheck⟩ := checkFree_cases o.outputPath o.force s
  · rw [hcheck]
    exact .taken held careful
  rw [hcheck]
  dsimp only
  rw [bind_apply]
  by_cases hvalid : o.config.Valid
  swap
  · rw [Config.check, if_neg hvalid]
    exact .unsound free hvalid
  rw [Config.check_eq_ok_iff.mpr hvalid, sound]
  dsimp only
  rw [bind_apply, openInput]
  cases hfind : s.files.find o.input with
  | error fault => exact .unopened free hvalid hfind
  | ok input =>
    dsimp only
    rw [bind_apply, openOutput]
    cases hcreate : s.files.create o.outputPath with
    | error fault => exact .barred free hvalid hfind hcreate
    | ok created =>
      obtain ⟨output, files⟩ := created
      dsimp only
      rw [bind_apply, content]
      dsimp only
      cases hread : files.read input with
      | error fault => exact .unreadable free hvalid hfind hcreate hread
      | ok data =>
        obtain ⟨frame, hpack, hchunks⟩ := packChunks_eq hvalid data
        dsimp only
        rw [bind_apply, hchunks]
        exact .packed free hvalid hfind hcreate hread hpack _

/-- What decompressing lays into its output, and how it ends. -/
def decoding (input output : Place) (reader : FrameReader) : ByteArray × Except Fault Unit :=
  if output = input then
    ((Overwriting.start reader).run.1.bytes, (Overwriting.start reader).run.2)
  else (decode reader).2

/-- What decompressing can come to. -/
inductive Decompresses (o : DecompressOptions) (s : Session) :
    EStateM.Result Fault Session Unit → Prop where
  /-- The output path is taken. -/
  | taken (held : s.files.holds o.outputPath = true) (careful : o.force = false) :
    Decompresses o s (.error (.alreadyExists o.outputPath) s)
  /-- There is no frame at the input path, or one that breaks off before its first block. -/
  | unusable (free : s.files.Free o.outputPath o.force) {fault : Fault}
    (hframe : s.files.findFrame o.input = .error fault) : Decompresses o s (.error fault s)
  /-- The output cannot be opened. -/
  | barred (free : s.files.Free o.outputPath o.force) {input : Place} {reader : FrameReader}
    (hframe : s.files.findFrame o.input = .ok (input, reader))
    {fault : FileFault} (hcreate : s.files.create o.outputPath = .error fault) :
    Decompresses o s (.error (.file fault) s)
  /-- The blocks before a fault are in the output. -/
  | broken (free : s.files.Free o.outputPath o.force) {input : Place} {reader : FrameReader}
    (hframe : s.files.findFrame o.input = .ok (input, reader))
    {output : Place} {files : FileSystem}
    (hcreate : s.files.create o.outputPath = .ok (output, files)) {data : ByteArray} {fault : Fault}
    (hdecoding : decoding input output reader = (data, .error fault)) :
    Decompresses o s (.error fault { s with files := files.put output (.file data) })
  /-- All blocks are in the output. -/
  | unpacked (free : s.files.Free o.outputPath o.force) {input : Place} {reader : FrameReader}
    (hframe : s.files.findFrame o.input = .ok (input, reader))
    {output : Place} {files : FileSystem}
    (hcreate : s.files.create o.outputPath = .ok (output, files)) {data : ByteArray}
    (hdecoding : decoding input output reader = (data, .ok ())) (printed : String) :
    Decompresses o s (.ok () ⟨files.put output (.file data), printed⟩)

theorem decompresses_decompress (o : DecompressOptions) (s : Session) :
    Decompresses o s (decompress o s) := by
  rw [decompress, bind_apply]
  obtain ⟨held, careful, hcheck⟩ | ⟨free, hcheck⟩ := checkFree_cases o.outputPath o.force s
  · rw [hcheck]
    exact .taken held careful
  rw [hcheck]
  dsimp only
  rw [openFrame_bind]
  cases hframe : s.files.findFrame o.input with
  | error fault => exact .unusable free hframe
  | ok found =>
    obtain ⟨input, reader⟩ := found
    dsimp only
    rw [bind_apply, openOutput]
    cases hcreate : s.files.create o.outputPath with
    | error fault => exact .barred free hframe hcreate
    | ok created =>
      obtain ⟨output, files⟩ := created
      dsimp only
      rw [← decoding]
      rcases hdecoding : decoding input output reader with ⟨data, outcome⟩
      rw [bind_apply, fill]
      cases outcome with
      | error fault => exact .broken free hframe hcreate hdecoding
      | ok _ => exact .unpacked free hframe hcreate hdecoding _

/-! ## Requests -/

variable {request : Request} {files : FileSystem} {s : Session}

theorem run_of_request {words : List String} (h : Request.ofWords words = .ok request)
    (files : FileSystem) : run words files = runRequest request files := by
  rw [run, h]

theorem files_runRequest (request : Request) (files : FileSystem) :
    (runRequest request files).2 = (leftBy (perform request { files })).files := by
  rw [runRequest]
  cases perform request { files } <;> rfl

theorem runRequest_of_ok (request : Request) (h : perform request { files } = .ok () s) :
    (runRequest request files).1.exit = 0 ∧ (runRequest request files).2 = s.files := by
  rw [runRequest, h]
  exact ⟨rfl, rfl⟩

theorem runRequest_of_error {fault : Fault} (h : perform request { files } = .error fault s) :
    (runRequest request files).1.exit = 1 ∧ (runRequest request files).2 = s.files := by
  rw [runRequest, h]
  exact ⟨rfl, rfl⟩

/-- A run that exits with 0 has done its work. -/
theorem exists_perform_of_exit (h : (runRequest request files).1.exit = 0) :
    ∃ s, perform request { files } = .ok () s ∧ (runRequest request files).2 = s.files := by
  cases hperform : perform request { files } with
  | ok _ s => exact ⟨s, rfl, (runRequest_of_ok request hperform).2⟩
  | error fault s =>
    rw [(runRequest_of_error hperform).1] at h
    exact absurd h (by decide)

end BlockPress.Shell
