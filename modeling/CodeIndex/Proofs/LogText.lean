import CodeIndex.History
import CodeIndex.Proofs.Dict
import CodeIndex.Proofs.Place
import Mathlib.Data.List.TakeWhile

set_option autoImplicit false

/-!
# Reading the log back

The log is text in a format that the program asks for: the placeholders of that format are filled in for each commit, and
below stand the files of the commit, one to a line, with blank lines anywhere among them.  What is printed so is read back
record for record, and under each path the first commit that lists it is kept.
-/

namespace CodeIndex

namespace Text

variable {cs : List Char}

/-! ## Trimming -/

theorem dropWhile_of_head {p : Char → Bool} (h : cs.head?.any p = false) : cs.dropWhile p = cs := by
  cases cs with
  | nil => rfl
  | cons c cs => exact List.dropWhile_cons_of_neg (by simpa using h)

theorem trim_of_ends (hhead : cs.head?.any isBlank = false) (hlast : cs.getLast?.any isBlank = false) : trim cs = cs := by
  rw [trim, trimBy, dropEndWhile, dropWhile_of_head hhead, dropWhile_of_head (by rwa [List.head?_reverse]), List.reverse_reverse]

theorem trim_eq_nil : trim cs = [] ↔ ∀ c ∈ cs, isBlank c = true := by
  rw [trim, trimBy, dropEndWhile, List.reverse_eq_nil_iff, List.dropWhile_eq_nil_iff]
  simp only [List.mem_reverse]
  refine ⟨fun h c hc => ?_, fun h c hc => h c ((List.dropWhile_suffix _).subset hc)⟩
  rw [← List.takeWhile_append_dropWhile (p := isBlank) (l := cs), List.mem_append] at hc
  rcases hc with hc | hc
  · exact List.mem_takeWhile_imp hc
  · exact h c hc

theorem trim_append_blank (cs : List Char) {c : Char} (hc : isBlank c = true) : trim (cs ++ [c]) = trim cs := by
  rw [trim, trim, trimBy, trimBy, List.dropWhile_append]
  split
  · next h => simp [List.isEmpty_iff.1 h, List.dropWhile_cons_of_pos hc]
  · simp [dropEndWhile, List.dropWhile_cons_of_pos hc]

theorem trim_dropReturn (cs : List Char) : trim (dropReturn cs) = trim cs := by
  rw [dropReturn]
  split
  · next h =>
    obtain ⟨init, rfl⟩ := List.getLast?_eq_some_iff.1 h
    rw [List.dropLast_concat, trim_append_blank init (by decide)]
  · rfl

/-! ## Lines -/

/-- Lines that are each ended by a line feed. -/
def endLines (ls : List (List Char)) : List Char := ls.flatMap (· ++ ['\n'])

theorem lines_endLines {ls : List (List Char)} (h : ∀ l ∈ ls, '\n' ∉ l) : lines (endLines ls) = ls.map dropReturn := by
  induction ls with
  | nil => rfl
  | cons l ls ih =>
    have hl := beq_of_notMem (h l List.mem_cons_self)
    have hrest := ih fun l' hl' => h l' (List.mem_cons_of_mem _ hl')
    rw [lines] at hrest ⊢
    have htext : endLines (l :: ls) = l ++ '\n' :: endLines ls := by simp [endLines]
    rw [htext, split_append_sep _ _ _ _ (by decide), split_of_noSep hl, List.singleton_append, List.map_cons, ← hrest]
    cases hpieces : split (· == '\n') (endLines ls) with
    | nil => exact absurd hpieces (split_ne_nil _ _)
    | cons piece pieces => rfl

end Text

namespace History

open Text

/-! ## What is printed -/

/-- The format of the first line of a record that the tool is asked for. -/
def headerFormat : List Char :=
  (HistoryQuery.log.arguments.findSome? fun argument => dropHead? "--format=".toList argument.toList).getD []

/-- A format with a commit filled in: its identifier for `%H`, the name of its author for `%an`, and its date for `%aI`. -/
def fill (c : Commit) : List Char → List Char
  | '%' :: 'H' :: rest => c.id.toList ++ fill c rest
  | '%' :: 'a' :: 'n' :: rest => c.author.toList ++ fill c rest
  | '%' :: 'a' :: 'I' :: rest => c.date.toList ++ fill c rest
  | x :: rest => x :: fill c rest
  | [] => []

/-- A line below the first one of a record: a file, or nothing to be seen. -/
inductive Line where
  | file (path : String)
  | blank (spaces : List Char)
  deriving DecidableEq

namespace Line

def text : Line → List Char
  | file path => path.toList
  | blank spaces => spaces

def path? : Line → Option String
  | file path => some path
  | blank _ => .none

/-- A path is not empty, breaks neither a line nor a record, and neither starts nor ends with a blank. -/
def Clean : Line → Prop
  | file path => path ≠ "" ∧ recordSeparator ∉ path.toList ∧ '\n' ∉ path.toList ∧
      path.toList.head?.any isBlank = false ∧ path.toList.getLast?.any isBlank = false
  | blank spaces => spaces.all isBlank = true ∧ '\n' ∉ spaces

instance : DecidablePred Clean := fun
  | file path => inferInstanceAs (Decidable (path ≠ "" ∧ recordSeparator ∉ path.toList ∧ '\n' ∉ path.toList ∧
      path.toList.head?.any isBlank = false ∧ path.toList.getLast?.any isBlank = false))
  | blank spaces => inferInstanceAs (Decidable (spaces.all isBlank = true ∧ '\n' ∉ spaces))

end Line

/-- A record of the log as it is printed. -/
structure Printed where
  commit : Commit
  below : List Line
  deriving DecidableEq

namespace Printed

/-- The files of a record, in order. -/
def files (r : Printed) : List String := r.below.filterMap Line.path?

def text (r : Printed) : List Char := endLines (fill r.commit headerFormat :: r.below.map Line.text)

/-- The usual form: one blank line, then the files. -/
def plain (commit : Commit) (files : List String) : Printed := ⟨commit, .blank [] :: files.map .file⟩

end Printed

/-- The characters that a field of the first line may not have: they would end the field, the line or the record. -/
def marks : List Char := [recordSeparator, fieldSeparator, '\n', '\r']

def IsField (field : String) : Prop := ∀ c ∈ marks, c ∉ field.toList

instance : DecidablePred IsField := fun field => List.decidableBAll (fun c => c ∉ field.toList) marks

/-- Records that can be told apart, and their parts. -/
structure Printed.Clean (r : Printed) : Prop where
  id : IsField r.commit.id
  author : IsField r.commit.author
  date : IsField r.commit.date
  below : ∀ line ∈ r.below, line.Clean

instance : DecidablePred Printed.Clean := fun r =>
  decidable_of_iff (IsField r.commit.id ∧ IsField r.commit.author ∧ IsField r.commit.date ∧ ∀ line ∈ r.below, line.Clean)
    ⟨fun ⟨hid, hauthor, hdate, hbelow⟩ => ⟨hid, hauthor, hdate, hbelow⟩, fun h => ⟨h.id, h.author, h.date, h.below⟩⟩

/-- A log: blanks, if any, and its records. -/
def logText (above : List Char) (log : List Printed) : List Char := above ++ log.flatMap Printed.text

variable {above : List Char} {log : List Printed} {r : Printed}

theorem headerFormat_eq : headerFormat = recordSeparator :: '%' :: 'H' :: fieldSeparator :: '%' :: 'a' :: 'n' :: fieldSeparator ::
    "%aI".toList := by decide

/-! ## One record -/

/-- The fields of the first line of a record, with a separator before each but the first. -/
def headerOf (c : Commit) : List Char :=
  c.id.toList ++ [c.author.toList, c.date.toList].flatMap (fieldSeparator :: ·)

/-- What stands behind the separator of a record. -/
def Printed.body (r : Printed) : List Char := endLines (headerOf r.commit :: r.below.map Line.text)

theorem text_eq (r : Printed) : r.text = recordSeparator :: r.body := by
  rw [Printed.text, headerFormat_eq]
  simp [fill, Printed.body, headerOf, endLines]

theorem Line.Clean.notMem_text {line : Line} (h : line.Clean) : recordSeparator ∉ line.text ∧ '\n' ∉ line.text := by
  cases line with
  | file path => exact ⟨h.2.1, h.2.2.1⟩
  | blank spaces =>
    refine ⟨fun hmem => ?_, h.2⟩
    have hblank := List.all_eq_true.1 h.1 _ hmem
    exact absurd hblank (by decide)

/-- A file is read as it was printed, and any other line is left out. -/
theorem Line.Clean.trim_text {line : Line} (h : line.Clean) : trim line.text = (line.path?.map String.toList).getD [] := by
  cases line with
  | file path => exact trim_of_ends h.2.2.2.1 h.2.2.2.2
  | blank spaces => exact trim_eq_nil.2 (List.all_eq_true.1 h.1)

theorem files_of_below {below : List Line} (h : ∀ line ∈ below, line.Clean) :
    ((((below.map Line.text).map dropReturn).map trim).filter fun l => !l.isEmpty).map String.ofList = below.filterMap Line.path? := by
  induction below with
  | nil => rfl
  | cons line below ih =>
    have hline := h line List.mem_cons_self
    rw [List.filterMap_cons, ← ih fun l hl => h l (List.mem_cons_of_mem _ hl), List.map_cons, List.map_cons, List.map_cons,
      trim_dropReturn, hline.trim_text]
    cases line with
    | file path =>
      have hne : path.toList ≠ [] := fun hnil => hline.1 (String.toList_eq_nil_iff.1 hnil)
      simp [Line.path?, hne]
    | blank spaces => rfl

namespace Printed.Clean

theorem split_header (h : r.Clean) : split (· == fieldSeparator) (headerOf r.commit) =
    [r.commit.id.toList, r.commit.author.toList, r.commit.date.toList] := by
  have hmark : fieldSeparator ∈ marks := by decide
  refine split_flatMap _ _ fun piece hpiece => ?_
  simp only [List.mem_cons, List.not_mem_nil, or_false] at hpiece
  rcases hpiece with rfl | rfl | rfl
  · exact h.id _ hmark
  · exact h.author _ hmark
  · exact h.date _ hmark

theorem notMem_header (h : r.Clean) {c : Char} (hc : c ∈ marks) (hne : c ≠ fieldSeparator) : c ∉ headerOf r.commit := by
  simp [headerOf, h.id c hc, h.author c hc, h.date c hc, hne]

/-- Nothing in the lines of a record ends one of them or the record. -/
theorem notMem_line (h : r.Clean) : ∀ l ∈ headerOf r.commit :: r.below.map Line.text, recordSeparator ∉ l ∧ '\n' ∉ l := by
  rintro l hl
  rcases List.mem_cons.1 hl with rfl | hl
  · exact ⟨h.notMem_header (by decide) (by decide), h.notMem_header (by decide) (by decide)⟩
  · obtain ⟨line, hline, rfl⟩ := List.mem_map.1 hl
    exact (h.below line hline).notMem_text

theorem notMem_body (h : r.Clean) : recordSeparator ∉ r.body := by
  intro hmem
  obtain ⟨l, hl, hmem⟩ := List.mem_flatMap.1 hmem
  rcases List.mem_append.1 hmem with hmem | hmem
  · exact (h.notMem_line l hl).1 hmem
  · exact absurd (List.mem_singleton.1 hmem) (by decide)

theorem lines_body (h : r.Clean) : lines r.body = headerOf r.commit :: (r.below.map Line.text).map dropReturn := by
  have hreturn : '\r' ∉ headerOf r.commit := h.notMem_header (by decide) (by decide)
  have hheader : dropReturn (headerOf r.commit) = headerOf r.commit := by
    rw [dropReturn, if_neg fun hlast => hreturn (List.mem_of_getLast? hlast)]
  rw [Printed.body, lines_endLines fun l hl => (h.notMem_line l hl).2, List.map_cons, hheader]

theorem record?_body (h : r.Clean) : record? r.body = some (r.commit, r.files) := by
  rw [record?, h.lines_body]
  simp only [h.split_header, files_of_below h.below, String.ofList_toList]
  rfl

end Printed.Clean

theorem trim_body_ne_nil (r : Printed) : trim r.body ≠ [] := by
  intro hnil
  have hmem : fieldSeparator ∈ r.body := by simp [Printed.body, endLines, headerOf]
  exact absurd (trim_eq_nil.1 hnil _ hmem) (by decide)

/-! ## The whole log -/

/-- What was printed is read, record for record. -/
theorem records_logText (habove : above.all isBlank = true) (hlog : ∀ r ∈ log, r.Clean) :
    records (logText above log) = log.map fun r => (r.commit, r.files) := by
  have hblank := List.all_eq_true.1 habove
  have hpieces : split (· == recordSeparator) (logText above log) = above :: log.map Printed.body := by
    have htext : logText above log = above ++ (log.map Printed.body).flatMap (recordSeparator :: ·) := by
      rw [logText, funext text_eq, List.flatMap_map]
    rw [htext]
    refine split_flatMap _ _ fun piece hpiece => ?_
    rcases List.mem_cons.1 hpiece with rfl | hpiece
    · exact fun hmem => absurd (hblank _ hmem) (by decide)
    · obtain ⟨r, hr, rfl⟩ := List.mem_map.1 hpiece
      exact (hlog r hr).notMem_body
  have hkept : (log.map Printed.body).filter (fun body => !(trim body).isEmpty) = log.map Printed.body := by
    refine List.filter_eq_self.2 fun body hbody => ?_
    obtain ⟨r, -, rfl⟩ := List.mem_map.1 hbody
    simpa using trim_body_ne_nil r
  rw [records, hpieces, List.filter_cons, if_neg (by simp [trim_eq_nil.2 hblank]), hkept, List.filterMap_map,
    List.filterMap_eq_map_iff_forall_eq_some.2]
  exact fun r hr => (hlog r hr).record?_body

/-- Under a path stands the first commit that lists it. -/
theorem get?_lastCommits (found : List (Commit × List String)) (path : String) :
    (lastCommits found).get? path = (found.find? fun e => path ∈ e.2).map Prod.fst := by
  rw [lastCommits, Dict.get?_ofListFirst]
  induction found with
  | nil => rfl
  | cons e found ih =>
    obtain ⟨commit, files⟩ := e
    have hfirst : Dict.find? path (files.map fun file => (file, commit)) = if path ∈ files then some commit else .none := by
      split
      · next h =>
        refine Dict.find?_eq_some (fun v hv => ?_) (List.mem_map.2 ⟨path, h, rfl⟩)
        obtain ⟨_, -, heq⟩ := List.mem_map.1 hv
        exact (Prod.mk.inj heq).2.symm
      · next h =>
        refine Dict.find?_eq_none.2 fun e he heq => h ?_
        obtain ⟨file, hfile, rfl⟩ := List.mem_map.1 he
        exact heq ▸ hfile
    rw [List.flatMap_cons, Dict.find?_append, ih, hfirst, List.find?_cons]
    by_cases h : path ∈ files <;> simp [h]

theorem files_plain (commit : Commit) (files : List String) : (Printed.plain commit files).files = files := by
  rw [Printed.files, Printed.plain, List.filterMap_cons, List.filterMap_map]
  exact List.filterMap_some

theorem Printed.Clean.plain (h : r.Clean) : (Printed.plain r.commit r.files).Clean where
  id := h.id
  author := h.author
  date := h.date
  below := by
    intro line hline
    rcases List.mem_cons.1 hline with rfl | hline
    · exact ⟨rfl, List.not_mem_nil⟩
    · obtain ⟨path, hpath, rfl⟩ := List.mem_map.1 hline
      obtain ⟨line, hmem, hline⟩ := List.mem_filterMap.1 hpath
      cases line with
      | file path' =>
        cases hline
        exact h.below _ hmem
      | blank spaces => cases hline

/-- The commits that touch files, as they are usually printed. -/
def usual (log : List Printed) : List Printed :=
  (log.filter fun r => r.files ≠ []).map fun r => .plain r.commit r.files

theorem clean_usual (hlog : ∀ r ∈ log, r.Clean) : ∀ r ∈ usual log, r.Clean := by
  intro r hr
  obtain ⟨r', hr', rfl⟩ := List.mem_map.1 hr
  exact (hlog r' (List.mem_of_mem_filter hr')).plain

/-- A log is read back: its records come out as they went in, each path has the first commit that lists it and no other
    path has any, and records without files and blank lines make no difference. -/
theorem log_read_back (habove : above.all isBlank = true) (hlog : ∀ r ∈ log, r.Clean) :
    records (logText above log) = log.map (fun r => (r.commit, r.files)) ∧
      (∀ path, (lastCommits (records (logText above log))).get? path =
        (log.find? fun r => path ∈ r.files).map Printed.commit) ∧
      lastCommits (records (logText above log)) = lastCommits (records (logText [] (usual log))) := by
  have hfirst : ∀ (log : List Printed) (path : String),
      (lastCommits (log.map fun r => (r.commit, r.files))).get? path =
        (log.find? fun r => path ∈ r.files).map Printed.commit := by
    intro log path
    rw [get?_lastCommits, List.find?_map, Option.map_map]
    rfl
  have hrecords := records_logText habove hlog
  rw [hrecords, records_logText rfl (clean_usual hlog)]
  refine ⟨rfl, hfirst log, Dict.ext_get? fun path => ?_⟩
  rw [hfirst, hfirst, usual, List.find?_map, List.find?_filter, Option.map_map]
  congr 2
  funext r
  -- a record that lists the path has files, so it is not left out
  by_cases h : path ∈ r.files
  · simp [files_plain, h, List.ne_nil_of_mem h]
  · simp [files_plain, h]

/-- Two commits to one file, with a merge between them that lists no files, and blank lines here and there. -/
def merged : List Printed :=
  [.plain ⟨"c3", "Ann % Lee", "2026-02-01T10:00:00+00:00"⟩ ["src/a.rs", "src/b c.rs"],
    ⟨⟨"c2", "Bob", "2026-01-15T10:00:00+00:00"⟩, []⟩,
    ⟨⟨"c1", "Bob", "2026-01-01T10:00:00+00:00"⟩, [.blank [], .file "src/a.rs", .blank [' ', '\r'], .file "README.md"]⟩]

/-- That log as text. -/
def mergedText : String :=
  "\n\x1ec3\x1fAnn % Lee\x1f2026-02-01T10:00:00+00:00\n\nsrc/a.rs\nsrc/b c.rs\n" ++
    "\x1ec2\x1fBob\x1f2026-01-15T10:00:00+00:00\n" ++
    "\x1ec1\x1fBob\x1f2026-01-01T10:00:00+00:00\n\nsrc/a.rs\n \r\nREADME.md\n"

theorem log_read_back_merged : logText ['\n'] merged = mergedText.toList ∧
    (∀ r ∈ merged, r.Clean) ∧
    (lastCommits (records (logText ['\n'] merged))).get? "src/a.rs" =
      some ⟨"c3", "Ann % Lee", "2026-02-01T10:00:00+00:00"⟩ ∧
    (lastCommits (records (logText ['\n'] merged))).get? "README.md" = some ⟨"c1", "Bob", "2026-01-01T10:00:00+00:00"⟩ ∧
    (lastCommits (records (logText ['\n'] merged))).get? "src/c.rs" = .none := by
  have hclean : ∀ r ∈ merged, r.Clean := by decide +kernel
  obtain ⟨-, hfirst, -⟩ := @log_read_back ['\n'] merged (by decide) hclean
  exact ⟨by decide +kernel, hclean, (hfirst "src/a.rs").trans (by decide +kernel), (hfirst "README.md").trans (by decide +kernel),
    (hfirst "src/c.rs").trans (by decide +kernel)⟩

end History

end CodeIndex
