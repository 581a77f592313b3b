import BlockPress.Shell.FileSystem
import Mathlib.Data.Nat.Notation

/-!
# Files at their places

Creating a file puts it at the place that its path leads to, and only where no directory is
(`create_eq_ok_iff`).  A path leads to the place that it names, if it leads anywhere
(`eq_ofPath_of_locate`): a file that is put somewhere may bar a way, but no way that was open leads
elsewhere (`locate_put`).
-/

namespace BlockPress.Shell.FileSystem

open scoped Standard

variable {fs fs' : FileSystem} {p q r : Place} {path : String}

/-! ## Putting files -/

/-- A place without a directory is not one that always has one. -/
theorem isGiven_eq_false (h : fs.lookup? p ≠ some .directory) : p.isGiven = false := by
  rw [lookup?] at h
  exact Bool.eq_false_iff.mpr fun hgiven => h (if_pos hgiven)

theorem lookup?_put_self (h : fs.lookup? p ≠ some .directory) (e : Entry) :
    (fs.put p e).lookup? p = some e := by
  rw [lookup?_put fs (isGiven_eq_false h), if_pos rfl]

theorem lookup?_put_of_ne (h : fs.lookup? p ≠ some .directory) (e : Entry) (hq : q ≠ p) :
    (fs.put p e).lookup? q = fs.lookup? q := by
  rw [lookup?_put fs (isGiven_eq_false h), if_neg hq]

/-- What is put at a place takes the place of what was put there before. -/
theorem put_put (fs : FileSystem) (p : Place) (e e' : Entry) : (fs.put p e).put p e' = fs.put p e' := by
  simp only [put, List.filter_cons, ne_eq, not_true_eq_false, decide_false, Bool.false_eq_true, if_false,
    List.filter_filter, Bool.and_self]

/-- The bytes of a file that was put somewhere can be read. -/
theorem read_put_self (h : fs.lookup? p ≠ some .directory) (data : ByteArray) :
    (fs.put p (.file data)).read p = .ok data := by
  rw [read, lookup?_put_self h]

theorem read_put_of_ne (h : fs.lookup? p ≠ some .directory) (e : Entry) (hq : q ≠ p) :
    (fs.put p e).read q = fs.read q := by
  rw [read, lookup?_put_of_ne h e hq, read]

/-! ## Paths -/

theorem eq_foldl_of_walk {names : List String} (h : fs.walk p names = .ok q) :
    q = names.foldl Place.enter p := by
  induction names generalizing p with
  | nil =>
    cases h
    rfl
  | cons name names ih =>
    rw [walk] at h
    split at h
    · cases h
    · cases h
    · split at h
      · cases h
      · exact ih h

/-- **A path leads nowhere but to the place that it names**, whatever files there are. -/
theorem eq_ofPath_of_locate (h : fs.locate path = .ok p) : p = Place.ofPath path := by
  rw [locate] at h
  split at h
  · cases h
  · exact eq_foldl_of_walk h

/-- A file does not change where a walk comes to, if it comes anywhere. -/
theorem walk_put (h : fs.lookup? p ≠ some .directory) (data : ByteArray) (names : List String) :
    (fs.put p (.file data)).walk q names = .ok r ↔ fs.walk q names = .ok r := by
  induction names generalizing q with
  | nil => rfl
  | cons name names ih =>
    rw [walk, walk]
    by_cases hq : q = p
    · -- Nobody comes further than to the file, and nobody came through that place before.
      subst hq
      rw [lookup?_put_self h]
      cases hlookup : fs.lookup? q with
      | none => exact iff_of_false nofun nofun
      | some e =>
        cases e with
        | file => exact iff_of_false nofun nofun
        | directory => exact absurd hlookup h
    · rw [lookup?_put_of_ne h _ hq]
      cases hlookup : fs.lookup? q with
      | none => rfl
      | some e =>
        cases e with
        | file => rfl
        | directory =>
          dsimp only
          split
          · rfl
          · exact ih

/-- **A file does not change where a path leads to.** -/
theorem locate_put (h : fs.lookup? p ≠ some .directory) (data : ByteArray) :
    (fs.put p (.file data)).locate path = .ok r ↔ fs.locate path = .ok r := by
  rw [locate, locate]
  split
  · rfl
  · exact walk_put h data _

/-- **A file is created where its path leads to, if no directory is there.** -/
theorem create_eq_ok_iff : fs.create path = .ok (p, fs') ↔
    Path.endsInSlash path = false ∧ fs.locate path = .ok p ∧ fs.lookup? p ≠ some .directory ∧
      fs' = fs.put p (.file .empty) := by
  rw [create]
  by_cases hslash : Path.endsInSlash path = true
  · rw [if_pos hslash]
    refine iff_of_false ?_ fun h => Bool.false_ne_true (h.1.symm.trans hslash)
    split <;> nofun
  rw [if_neg hslash, Bool.eq_false_iff.mpr hslash]
  cases hlocate : fs.locate path with
  | error fault => exact iff_of_false nofun fun h => nomatch h.2.1
  | ok q =>
    dsimp only
    split
    · next hdirectory =>
      refine iff_of_false nofun ?_
      rintro ⟨-, h, hne, -⟩
      cases h
      exact hne hdirectory
    · next hne =>
      constructor
      · intro h
        cases h
        exact ⟨rfl, rfl, hne, rfl⟩
      · rintro ⟨-, h, -, rfl⟩
        cases h
        rfl

/-- A file is found where its path leads to. -/
theorem find_eq_ok (hslash : Path.endsInSlash path = false) (hlocate : fs.locate path = .ok p)
    {e : Entry} (hlookup : fs.lookup? p = some e) : fs.find path = .ok p := by
  rw [find, hlocate]
  dsimp only
  rw [hlookup]
  cases e with
  | file => exact if_neg (Bool.eq_false_iff.mp hslash)
  | directory => rfl

/-- A path along which there is nothing at the end holds nothing. -/
theorem holds_eq_false (hlocate : fs.locate path = .ok p) (hlookup : fs.lookup? p = none) :
    fs.holds path = false := by
  rw [holds, find, hlocate]
  dsimp only
  rw [hlookup]

end BlockPress.Shell.FileSystem
