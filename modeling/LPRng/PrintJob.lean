import LPRng.Separated
import LPRng.UpdateStatus

/-!
# What a job's server writes to the printer

`Print_job` fills one output buffer with the leader, the form feed on open and a banner, writes
it, writes the data files with their separators, and fills and writes the buffer once more at the
end. This module follows it where no filter is set. Writes deliver all their bytes. The banner
program, the formatter of format `p` and the expansion of the banner line (`Fix_dollars`) are
parameters that see the information of the job.

If `Generate_banner` is set, the banners become data files, and the buffer is cleared on the
way: leader and form feed on open are lost.
-/

namespace LPRng

namespace PrintJob

/-! ## The output buffer -/

/-- `LARGEBUFFER`. -/
abbrev largeBuffer : Nat := 10240

/-- `Outbuf`, `Outmax` and `Outlen`: the bytes in the buffer fit into it. -/
structure OutBuf where
  max : Nat
  data : Bytes
  fits : data.length ≤ max

namespace OutBuf

/-- `Init_buf`. -/
def initBuf (buf : OutBuf) : OutBuf where
  max := if buf.max = 0 then largeBuffer else buf.max
  data := []
  fits := Nat.zero_le _

/-- `Put_buf_len`: the buffer grows where it has no room. -/
def putBufLen (s : Bytes) (buf : OutBuf) : OutBuf where
  max :=
    if s ≠ [] ∧ buf.max - buf.data.length ≤ s.length then
      buf.max + (largeBuffer + s.length) / 1024 * 1024
    else buf.max
  data := buf.data ++ s
  fits := by
    have before := buf.fits
    rw [List.length_append]
    split
    · have large : largeBuffer = 10240 := rfl
      omega
    · rename_i room
      cases s with
      | nil => exact before
      | cons c cs =>
          have enough : ¬buf.max - buf.data.length ≤ (c :: cs).length := fun small => room ⟨nofun, small⟩
          omega

/-- `Put_buf_str`; no string adds nothing. -/
def putBufStr (s : Option Bytes) (buf : OutBuf) : OutBuf := buf.putBufLen (s.getD [])

/-- A read from a file into the buffer takes as much as fits. -/
def fill (s : Bytes) (buf : OutBuf) : OutBuf where
  max := buf.max
  data := s.take buf.max
  fits := List.length_take_le ..

variable (buf : OutBuf) (s : Bytes)

@[simp] theorem data_initBuf : buf.initBuf.data = [] := rfl

theorem max_initBuf_pos : 0 < buf.initBuf.max := by
  change 0 < if buf.max = 0 then largeBuffer else buf.max
  split
  · decide
  · exact Nat.pos_of_ne_zero ‹_›

@[simp] theorem data_putBufLen : (buf.putBufLen s).data = buf.data ++ s := rfl

@[simp] theorem data_putBufStr (s : Option Bytes) : (buf.putBufStr s).data = buf.data ++ s.getD [] := rfl

@[simp] theorem data_fill : (buf.fill s).data = s.take buf.max := rfl

end OutBuf

/-! ## Configured strings -/

/-- `strchr` for a backslash, the number or letter behind it, and the next one. `buffer` is the
array of four characters on the stack, whose rest is what an earlier escape has left there. -/
def decodeEscapes (buffer : Bytes) : Bytes → Bytes
  | [] => []
  | 92 :: rest =>
      let digits := (rest.take 3).takeWhile isDigit
      if digits = [] then
        match rest with
        | [] => []
        | 102 :: rest => 12 :: decodeEscapes buffer rest
        | 114 :: rest => 13 :: decodeEscapes buffer rest
        | 110 :: rest => 10 :: decodeEscapes buffer rest
        | 116 :: rest => 9 :: decodeEscapes buffer rest
        | c :: rest => c :: decodeEscapes buffer rest
      else
        let buffer := digits ++ buffer.drop digits.length
        let c : UInt8 := UInt8.ofNat ((strtol 8 (cstr buffer)).1 % 256).toNat
        c :: decodeEscapes buffer (rest.drop digits.length)
  | c :: rest => c :: decodeEscapes buffer rest
  termination_by s => s.length
  decreasing_by all_goals simp_wf

/-- `Fix_str`: a null byte ends the string, and an empty string is none. -/
def fixStr (buffer : Bytes) (str : Option Bytes) : Option Bytes :=
  (str.map fun s => cstr (decodeEscapes buffer s)).filter (· ≠ [])

/-! ## Jobs and their configuration -/

/-- `BNRNAME`. -/
abbrev bnrname : Key := .letter 76

/-- `DF_NAME`. -/
abbrev dfName : Key := .other (lit "df_name")

/-- One entry of the data files of a job, and what its file holds if it can be opened and read. -/
structure DataFile where
  fields : Fields
  contents : Option Bytes

/-- The variables of the configuration that `Print_job` consults where no filter is set. -/
structure Settings where
  formFeed : Option Bytes
  leaderOnOpen : Option Bytes
  trailerOnClose : Option Bytes
  ffOnOpen : Bool
  ffOnClose : Bool
  ffSeparator : Bool
  noFfSeparator : Bool
  alwaysBanner : Bool
  suppressHeader : Bool
  bannerLast : Bool
  generateBanner : Bool
  shortBanner : Bool
  bannerStart : Option Bytes
  bannerEnd : Option Bytes
  bannerPrinter : Option Bytes
  bannerLine : Bytes
  prProgram : Option Bytes

/-- What `Print_job` runs or calls: the output of a banner program, none if it fails, the text a
banner line stands for, the output of the formatter of format `p`, none if it fails, and what the
array in `Fix_str` holds. -/
structure Programs where
  banner : Bytes → Fields → Option Bytes
  fixDollars : Bytes → Fields → Bytes
  pretty : Bytes → Fields → Bytes → Option Bytes
  buffer : Bytes

variable (programs : Programs) (config : Settings)

def Settings.ffStr : Option Bytes := fixStr programs.buffer config.formFeed

def Settings.leaderStr : Option Bytes := fixStr programs.buffer config.leaderOnOpen

def Settings.trailerStr : Option Bytes := fixStr programs.buffer config.trailerOnClose

/-! ## Banners -/

/-- The program's output comes in pieces of at most `LARGEBUFFER` bytes. -/
def putPieces (s : Bytes) (buf : OutBuf) : OutBuf :=
  if s = [] then buf else putPieces (s.drop largeBuffer) (buf.putBufLen (s.take largeBuffer))
  termination_by s.length
  decreasing_by
    have pending := List.length_pos_iff.mpr ‹¬s = []›
    have large : largeBuffer = 10240 := rfl
    rw [List.length_drop]
    omega

/-- `Print_banner`; the process exits if the program fails. -/
def printBanner (pgm : Option Bytes) (info : Fields) (buf : OutBuf) : Option OutBuf :=
  match pgm.or config.bannerPrinter with
  | some pgm => (programs.banner pgm info).map fun text => putPieces text buf
  | none =>
      if config.shortBanner then
        some (buf.putBufStr (some (cstr (programs.fixDollars config.bannerLine info) ++ [10])))
      else some buf

/-- The data file that `Add_banner_to_job` makes of a banner; `name` is its temporary file. -/
def bannerFile (name text : Bytes) : DataFile where
  fields :=
    (((Fields.empty.setStrValue .openname (some name)).setStrValue .dftransfername (some name)).setStrValue
      (.letter 78) (some (lit "BANNER"))).setStrValue .format (some (lit "f"))
  contents := some text

/-- The information of the job with a banner name, as `Add_banner_to_job` completes it. -/
def nameBanner (info : Fields) : Fields :=
  info.setStrValue bnrname
    (((info.findStrValue bnrname).or (info.findStrValue .logname)).or (some (lit "ANONYMOUS")))

/-- A banner of `Add_banner_to_job`, which is put together in the cleared buffer. -/
def bannerFiles (placed : Bool) (pgm : Option Bytes) (name : Bytes) (info : Fields) (buf : OutBuf) :
    Option (List DataFile × OutBuf) :=
  if placed then
    (printBanner programs config pgm info buf.initBuf).map fun buf => ([bannerFile name buf.data], buf)
  else some ([], buf)

/-- `Add_banner_to_job`: the banners become the first and the last data file. The buffer is the
one they were put together in. -/
def addBannerToJob (names : Bytes × Bytes) (info : Fields) (files : List DataFile) (buf : OutBuf) :
    Option (Fields × List DataFile × OutBuf) := do
  let info := nameBanner info
  let (front, buf) ← bannerFiles programs config (!config.bannerLast) config.bannerStart names.1 info buf
  let (back, buf) ←
    bannerFiles programs config (config.bannerLast || config.bannerEnd.isSome) config.bannerEnd names.2 info buf
  pure (info, front ++ files ++ back, buf)

/-! ## Printing the data files -/

/-- What `Print_job` keeps from one data file to the next, with the bytes written so far. -/
structure Progress where
  outbuf : OutBuf
  written : Bytes
  filesPrinted : Nat
  info : Fields

/-- `Write_outbuf_to_OF`, which delivers the whole buffer. -/
def Progress.writeOutbuf (p : Progress) : Progress :=
  { p with written := p.written ++ p.outbuf.data }

/-- A buffer without bytes is not written. -/
def Progress.writeIfFilled (p : Progress) : Progress :=
  if p.outbuf.data.length ≠ 0 then { p.writeOutbuf with outbuf := p.outbuf.initBuf } else p

/-- The read loop of a data file without a filter: the buffer is filled and written until
nothing is read. -/
def copyFile (s : Bytes) (p : Progress) : Progress :=
  let filled := { p with outbuf := p.outbuf.fill s }
  if filled.outbuf.data.length = 0 then filled
  else copyFile (s.drop p.outbuf.max) filled.writeOutbuf
  termination_by s.length
  decreasing_by
    have read : ¬(s.take p.outbuf.max).length = 0 := ‹_›
    rw [List.length_take] at read
    rw [List.length_drop]
    omega

/-- The separator before a copy, if something was printed before. -/
def putSeparator (filesPrinted : Nat) (buf : OutBuf) : OutBuf :=
  if filesPrinted ≠ 0 && (!config.noFfSeparator || config.ffSeparator) then
    buf.putBufStr (config.ffStr programs)
  else buf

/-- One copy of a data file. -/
def printCopy (text : Bytes) (p : Progress) : Progress :=
  let buf := putSeparator programs config p.filesPrinted p.outbuf.initBuf
  let p := Progress.writeIfFilled { p with outbuf := buf, filesPrinted := p.filesPrinted + 1 }
  copyFile text { p with outbuf := p.outbuf.initBuf }

namespace DataFile

variable (file : DataFile)

/-- A copy count of zero stands for one copy. -/
def copies : Int :=
  if file.fields.findFlagValue .copies = 0 then 1 else file.fields.findFlagValue .copies

/-- `cval(format)`. -/
def formatLetter : UInt8 := ((file.fields.findStrValue .format).getD []).headD 0

/-- The fields of a data file that its job's information shows while it is printed. -/
def shown (info : Fields) : Fields :=
  ((info.setStrValue .format (file.fields.findStrValue .format)).setStrValue dfName
    (file.fields.findStrValue .dftransfername)).setStrValue (.letter 78)
    (file.fields.findStrValue (.letter 78))

/-- What is printed for a data file: its contents, or for format `p` what the formatter makes
of them. -/
def text (info : Fields) : Except Status Bytes :=
  match file.contents with
  | none => .error .jfail
  | some contents =>
      if file.formatLetter = 112 then
        match config.prProgram with
        | none => .error .jabort
        | some pr =>
            match programs.pretty pr info contents with
            | none => .error .jabort
            | some formatted => .ok formatted
      else .ok contents

end DataFile

/-- The loop over the data files, which an error leaves for the end of the job. -/
def printFiles : List DataFile → Progress → Status × Progress
  | [], p => (.jsucc, p)
  | file :: rest, p =>
      let p := { p with info := file.shown p.info }
      match file.text programs config p.info with
      | .error status => (status, p)
      | .ok text => printFiles rest ((printCopy programs config text)^[file.copies.toNat] p)

/-! ## The job -/

/-- A job as its server has it when it prints it. -/
structure PrintedJob where
  info : Fields
  datafiles : List DataFile

/-- The banner name and the information of the job that holds it. -/
def bannerName (info : Fields) : Option Bytes × Fields :=
  match info.findStrValue bnrname with
  | some name => (some name, info)
  | none =>
      if config.alwaysBanner then
        let name := (info.findStrValue .logname).getD (lit "ANONYMOUS")
        (some name, info.setStrValue bnrname (some name))
      else (none, info)

/-- What stands when the data files are begun. -/
structure Opening where
  outbuf : OutBuf
  info : Fields
  files : List DataFile
  doBanner : Bool

/-- `Print_job` up to the first write. -/
def opening (names : Bytes × Bytes) (job : PrintedJob) (outbuf : OutBuf) : Option Opening := do
  let buf := outbuf.initBuf.putBufStr (config.leaderStr programs)
  let buf := if config.ffOnOpen then buf.putBufStr (config.ffStr programs) else buf
  let (name, info) := bannerName config job.info
  let doBanner := !config.suppressHeader && name.isSome
  if doBanner && config.generateBanner then
    let (info, files, buf) ← addBannerToJob programs config names info job.datafiles buf
    -- `Outlen = 0`, with which leader and form feed go
    pure { outbuf := buf.initBuf, info := info, files := files, doBanner := false }
  else if doBanner && !config.bannerLast then
    let buf ← printBanner programs config config.bannerStart info buf
    pure { outbuf := buf, info := info, files := job.datafiles, doBanner := doBanner }
  else pure { outbuf := buf, info := info, files := job.datafiles, doBanner := doBanner }

/-- `Print_job` from `end_of_job` on: the bytes of the end are written. -/
def endOfJob (doBanner : Bool) (p : Progress) : Option Progress :=
  let buf := p.outbuf.initBuf
  let bannered :=
    if doBanner && (config.bannerLast || config.bannerEnd.isSome) then
      printBanner programs config config.bannerEnd p.info buf
    else some buf
  bannered.map fun buf =>
    let buf := if config.ffOnClose then buf.putBufStr (config.ffStr programs) else buf
    Progress.writeIfFilled { p with outbuf := buf.putBufStr (config.trailerStr programs) }

/-- `Print_job`: its status and the bytes it has written, or nothing if the process exits. -/
def printJob (names : Bytes × Bytes) (job : PrintedJob) (outbuf : OutBuf) : Option (Status × Bytes) := do
  let start ← opening programs config names job outbuf
  let begun : Progress := { outbuf := start.outbuf, written := [], filesPrinted := 0, info := start.info }
  let (status, p) := printFiles programs config start.files begun.writeIfFilled
  let p ← endOfJob programs config start.doBanner p
  pure (status, p.written)

/-! ## What should be written -/

variable (names : Bytes × Bytes) (job : PrintedJob)

def bannerDue : Bool := !config.suppressHeader && (bannerName config job.info).1.isSome

/-- The text of a banner. -/
def bannerText (pgm : Option Bytes) (info : Fields) : Bytes :=
  match pgm.or config.bannerPrinter with
  | some pgm => (programs.banner pgm info).getD []
  | none => if config.shortBanner then cstr (programs.fixDollars config.bannerLine info) ++ [10] else []

/-- Leader and form feed on open. -/
def openingText : Bytes :=
  (config.leaderStr programs).getD [] ++ if config.ffOnOpen then (config.ffStr programs).getD [] else []

/-- The form feed before a copy, if separators are on. -/
def separator : Bytes :=
  if !config.noFfSeparator || config.ffSeparator then (config.ffStr programs).getD [] else []

/-- The data files in order, with the banners that are generated as the first and the last. -/
def filesDue : List DataFile :=
  if bannerDue config job && config.generateBanner then
    let info := nameBanner (bannerName config job.info).2
    (if !config.bannerLast then [bannerFile names.1 (bannerText programs config config.bannerStart info)] else []) ++
      job.datafiles ++
      if config.bannerLast || config.bannerEnd.isSome then
        [bannerFile names.2 (bannerText programs config config.bannerEnd info)]
      else []
  else job.datafiles

namespace DataFile

def contentsText (file : DataFile) : Bytes := file.contents.getD []

def dueCopies (file : DataFile) : Nat := (max 1 (file.fields.findFlagValue .copies)).toNat

def printedCopies (file : DataFile) : Nat := file.copies.toNat

end DataFile

/-- The information of a job behind its last data file. -/
def endInfo (info : Fields) (files : List DataFile) : Fields :=
  files.foldl (fun info file => file.shown info) info

/-- The start banner. -/
def startText : Bytes :=
  if bannerDue config job && !config.generateBanner && !config.bannerLast then
    bannerText programs config config.bannerStart (bannerName config job.info).2
  else []

/-- End banner, form feed on close and trailer. -/
def closingText : Bytes :=
  (if bannerDue config job && !config.generateBanner && (config.bannerLast || config.bannerEnd.isSome) then
    bannerText programs config config.bannerEnd (endInfo (bannerName config job.info).2 job.datafiles)
  else []) ++
    (if config.ffOnClose then (config.ffStr programs).getD [] else []) ++ (config.trailerStr programs).getD []

/-- The bytes a job's printing is meant to write. -/
def expected : Bytes :=
  openingText programs config ++ startText programs config job ++
    (separator programs config).intercalate
      (Separated.repeated DataFile.dueCopies DataFile.contentsText (filesDue programs config names job)) ++
    closingText programs config job

/-! ## What each part writes -/

variable {programs config names job}

theorem data_putPieces (s : Bytes) (buf : OutBuf) : (putPieces s buf).data = buf.data ++ s := by
  fun_induction putPieces s buf with
  | case1 buf => rw [List.append_nil]
  | case2 s buf pending ih =>
      rw [ih, OutBuf.data_putBufLen, List.append_assoc, List.take_append_drop]

theorem data_printBanner {pgm : Option Bytes} {info : Fields} {buf after : OutBuf}
    (printed : printBanner programs config pgm info buf = some after) :
    after.data = buf.data ++ bannerText programs config pgm info := by
  unfold printBanner at printed
  unfold bannerText
  cases chosen : pgm.or config.bannerPrinter with
  | some program =>
      rw [chosen] at printed
      obtain ⟨text, output, rfl⟩ := Option.map_eq_some_iff.mp printed
      rw [data_putPieces]
      exact congrArg (buf.data ++ ·) (congrArg (Option.getD · []) output).symm
  | none =>
      rw [chosen] at printed
      dsimp only at printed ⊢
      split at printed
      · cases printed
        rw [if_pos ‹_›]
        rfl
      · cases printed
        rw [if_neg ‹_›, List.append_nil]

@[simp] theorem Progress.written_writeIfFilled (p : Progress) :
    p.writeIfFilled.written = p.written ++ p.outbuf.data := by
  unfold writeIfFilled
  split
  · rfl
  · rename_i empty
    rw [List.length_eq_zero_iff.mp (Decidable.not_not.mp empty), List.append_nil]

@[simp] theorem Progress.filesPrinted_writeIfFilled (p : Progress) :
    p.writeIfFilled.filesPrinted = p.filesPrinted := by
  unfold writeIfFilled
  split <;> rfl

@[simp] theorem Progress.info_writeIfFilled (p : Progress) : p.writeIfFilled.info = p.info := by
  unfold writeIfFilled
  split <;> rfl

/-- A data file is written whole, whatever the size of the buffer. -/
theorem copyFile_spec (s : Bytes) (p : Progress) (room : 0 < p.outbuf.max) :
    (copyFile s p).written = p.written ++ s ∧ (copyFile s p).filesPrinted = p.filesPrinted ∧
      (copyFile s p).info = p.info := by
  fun_induction copyFile s p with
  | case1 s p filled empty =>
      have nothing : s = [] := by
        have taken : (s.take p.outbuf.max).length = 0 := empty
        rw [List.length_take] at taken
        exact List.length_eq_zero_iff.mp (by omega)
      rw [nothing, List.append_nil]
      exact ⟨rfl, rfl, rfl⟩
  | case2 s p filled some ih =>
      obtain ⟨written, printed, info⟩ := ih room
      refine ⟨?_, printed, info⟩
      have chunk : filled.writeOutbuf.written = p.written ++ s.take p.outbuf.max := rfl
      rw [written, chunk, List.append_assoc, List.take_append_drop]

theorem data_putSeparator (filesPrinted : Nat) (buf : OutBuf) :
    (putSeparator programs config filesPrinted buf).data =
      buf.data ++ Separated.joint (separator programs config) filesPrinted := by
  unfold putSeparator Separated.joint separator
  by_cases first : filesPrinted = 0
  · rw [if_pos first, if_neg (by simp [first]), List.append_nil]
  · rw [if_neg first]
    by_cases on : (!config.noFfSeparator || config.ffSeparator) = true
    · rw [if_pos (by simpa [first] using on), if_pos on, OutBuf.data_putBufStr]
    · rw [if_neg (by simpa [first] using on), if_neg on, List.append_nil]

variable (programs config) in
/-- A copy writes the separator, unless it is the first one, and the text. -/
theorem printCopy_spec (text : Bytes) (p : Progress) :
    (printCopy programs config text p).written =
        p.written ++ (Separated.joint (separator programs config) p.filesPrinted ++ text) ∧
      (printCopy programs config text p).filesPrinted = p.filesPrinted + 1 ∧
      (printCopy programs config text p).info = p.info := by
  let begun := Progress.writeIfFilled
    { p with outbuf := putSeparator programs config p.filesPrinted p.outbuf.initBuf,
             filesPrinted := p.filesPrinted + 1 }
  obtain ⟨written, printed, info⟩ := copyFile_spec text { begun with outbuf := begun.outbuf.initBuf }
    (OutBuf.max_initBuf_pos _)
  refine ⟨written.trans ?_, printed.trans ?_, info.trans ?_⟩
  · have before : begun.written = p.written ++ Separated.joint (separator programs config) p.filesPrinted := by
      rw [Progress.written_writeIfFilled, data_putSeparator, OutBuf.data_initBuf, List.nil_append]
    change begun.written ++ text = _
    rw [before, List.append_assoc]
  · exact Progress.filesPrinted_writeIfFilled _
  · exact Progress.info_writeIfFilled _

variable (programs config) in
/-- The copies of a data file follow what was printed before. -/
theorem printCopies_spec (text : Bytes) (copies : Nat) (p : Progress) :
    ((printCopy programs config text)^[copies] p).written = p.written ++
        Separated.continued (separator programs config) p.filesPrinted (List.replicate copies text) ∧
      ((printCopy programs config text)^[copies] p).filesPrinted = p.filesPrinted + copies ∧
      ((printCopy programs config text)^[copies] p).info = p.info := by
  induction copies generalizing p with
  | zero => exact ⟨(List.append_nil _).symm, rfl, rfl⟩
  | succ copies ih =>
      obtain ⟨written, printed, info⟩ := printCopy_spec programs config text p
      obtain ⟨writtenRest, printedRest, infoRest⟩ := ih (printCopy programs config text p)
      rw [Function.iterate_succ_apply]
      refine ⟨?_, ?_, infoRest.trans info⟩
      · rw [writtenRest, written, printed, List.replicate_succ, Separated.continued, List.append_assoc]
      · rw [printedRest, printed]
        omega

/-- A run over the data files that ends well has read each of them, and has written their
copies one after the other. -/
theorem printFiles_spec {files : List DataFile} {p after : Progress}
    (plain : ∀ file ∈ files, file.formatLetter ≠ 112)
    (printed : printFiles programs config files p = (.jsucc, after)) :
    after.written = p.written ++ Separated.continued (separator programs config) p.filesPrinted
        (Separated.repeated DataFile.printedCopies DataFile.contentsText files) ∧
      after.info = endInfo p.info files ∧ ∀ file ∈ files, file.contents.isSome := by
  induction files generalizing p with
  | nil =>
      cases printed
      exact ⟨(List.append_nil _).symm, rfl, nofun⟩
  | cons file rest ih =>
      rw [List.forall_mem_cons] at plain
      rw [printFiles] at printed
      cases opened : file.contents with
      | none => simp [DataFile.text, opened] at printed
      | some contents =>
          simp only [DataFile.text, opened, if_neg plain.1] at printed
          obtain ⟨written, info, others⟩ := ih plain.2 printed
          obtain ⟨writtenHere, printedHere, infoHere⟩ :=
            printCopies_spec programs config contents file.copies.toNat
              { p with info := file.shown p.info }
          refine ⟨?_, ?_, ?_⟩
          · have whole : Separated.repeated DataFile.printedCopies DataFile.contentsText (file :: rest) =
                List.replicate file.copies.toNat contents ++
                  Separated.repeated DataFile.printedCopies DataFile.contentsText rest := by
              rw [Separated.repeated, List.flatMap_cons, DataFile.contentsText, opened]
              rfl
            rw [written, writtenHere, printedHere, whole, Separated.continued_append, List.length_replicate,
              List.append_assoc]
          · rw [info, infoHere]
            rfl
          · intro one member
            cases member with
            | head => rw [opened]; rfl
            | tail _ member => exact others one member

theorem bannerFiles_eq {placed : Bool} {pgm : Option Bytes} {name : Bytes} {info : Fields} {buf after : OutBuf}
    {files : List DataFile} (made : bannerFiles programs config placed pgm name info buf = some (files, after)) :
    files = if placed then [bannerFile name (bannerText programs config pgm info)] else [] := by
  unfold bannerFiles at made
  split at made
  · obtain ⟨left, printed, same⟩ := Option.map_eq_some_iff.mp made
    cases same
    rw [data_printBanner printed, OutBuf.data_initBuf, List.nil_append, if_pos ‹_›]
  · cases made
    exact (if_neg ‹_›).symm

/-- `Add_banner_to_job` puts the text of each due banner into a data file of its own. -/
theorem addBannerToJob_files {info named : Fields} {files after : List DataFile} {buf left : OutBuf}
    (added : addBannerToJob programs config names info files buf = some (named, after, left)) :
    after = (if !config.bannerLast then
        [bannerFile names.1 (bannerText programs config config.bannerStart (nameBanner info))] else []) ++
      files ++
      if config.bannerLast || config.bannerEnd.isSome then
        [bannerFile names.2 (bannerText programs config config.bannerEnd (nameBanner info))]
      else [] := by
  obtain ⟨front, first, rest⟩ := Option.bind_eq_some_iff.mp added
  obtain ⟨back, second, result⟩ := Option.bind_eq_some_iff.mp rest
  cases result
  rw [bannerFiles_eq first, bannerFiles_eq second]

/-- What is in the buffer at the first write: leader, form feed on open and start banner, or
nothing if banners were generated. -/
theorem opening_spec {outbuf : OutBuf} {start : Opening}
    (opened : opening programs config names job outbuf = some start) :
    start.outbuf.data = (if bannerDue config job && config.generateBanner then []
        else openingText programs config ++ startText programs config job) ∧
      start.files = filesDue programs config names job ∧
      start.doBanner = (bannerDue config job && !config.generateBanner) ∧
      (start.doBanner = true → start.info = (bannerName config job.info).2) := by
  have buffered : ∀ buf : OutBuf, (if config.ffOnOpen then buf.putBufStr (config.ffStr programs) else buf).data =
      buf.data ++ if config.ffOnOpen then (config.ffStr programs).getD [] else [] := by
    intro buf
    split
    · rfl
    · exact (List.append_nil _).symm
  have begun : (if config.ffOnOpen then
        (outbuf.initBuf.putBufStr (config.leaderStr programs)).putBufStr (config.ffStr programs)
      else outbuf.initBuf.putBufStr (config.leaderStr programs)).data = openingText programs config := buffered _
  unfold opening at opened
  dsimp only at opened
  change (if (bannerDue config job && config.generateBanner) = true then _ else
    if (bannerDue config job && !config.bannerLast) = true then _ else _) = some start at opened
  unfold filesDue startText
  by_cases generated : (bannerDue config job && config.generateBanner) = true
  · rw [if_pos generated] at opened
    obtain ⟨⟨named, files, left⟩, added, result⟩ := Option.bind_eq_some_iff.mp opened
    cases result
    rw [if_pos generated, if_pos generated]
    have on := (Bool.and_eq_true_iff.mp generated).2
    exact ⟨rfl, addBannerToJob_files added, by rw [on, Bool.not_true, Bool.and_false], nofun⟩
  · rw [if_neg generated] at opened
    rw [if_neg generated, if_neg generated]
    have kept : (bannerDue config job && !config.generateBanner) = bannerDue config job := by
      cases due : bannerDue config job with
      | false => rfl
      | true =>
          rw [due, Bool.true_and] at generated
          rw [Bool.eq_false_iff.mpr generated]
          rfl
    rw [kept]
    by_cases first : (bannerDue config job && !config.bannerLast) = true
    · rw [if_pos first] at opened
      obtain ⟨buf, printed, result⟩ := Option.bind_eq_some_iff.mp opened
      cases result
      rw [if_pos first, data_printBanner printed, begun]
      exact ⟨rfl, rfl, rfl, fun _ => rfl⟩
    · rw [if_neg first] at opened
      cases opened
      rw [if_neg first, List.append_nil]
      exact ⟨begun, rfl, rfl, fun _ => rfl⟩

theorem endOfJob_spec {doBanner : Bool} {p after : Progress}
    (ended : endOfJob programs config doBanner p = some after) :
    after.written = p.written ++
      ((if doBanner && (config.bannerLast || config.bannerEnd.isSome) then
          bannerText programs config config.bannerEnd p.info else []) ++
        (if config.ffOnClose then (config.ffStr programs).getD [] else []) ++ (config.trailerStr programs).getD []) := by
  obtain ⟨buf, banner, result⟩ := Option.map_eq_some_iff.mp ended
  subst result
  have bannered : buf.data = if doBanner && (config.bannerLast || config.bannerEnd.isSome) then
      bannerText programs config config.bannerEnd p.info else [] := by
    split at banner
    · rw [data_printBanner banner, if_pos ‹_›]
      rfl
    · cases banner
      exact (if_neg ‹_›).symm
  rw [Progress.written_writeIfFilled, OutBuf.data_putBufStr, ← bannered]
  congr 2
  split
  · rfl
  · exact (List.append_nil _).symm

/-! ## The files of a generated banner -/

/-- A generated banner is printed once, as plain text. -/
theorem bannerFile_once (name text : Bytes) :
    (bannerFile name text).formatLetter = 102 ∧ (bannerFile name text).fields.findFlagValue .copies = 0 := by
  constructor
  · have format : (bannerFile name text).fields .format = (some (lit "f")).filter (· ≠ []) := by
      simp only [bannerFile, Fields.setStrValue_self]
    rw [DataFile.formatLetter, Fields.findStrValue, format]
    rfl
  · rw [bannerFile]
    simp only [Fields.findFlagValue_setStrValue_of_ne, ne_eq, reduceCtorEq, not_false_eq_true]
    rfl

theorem mem_filesDue {file : DataFile} (member : file ∈ filesDue programs config names job) :
    file ∈ job.datafiles ∨ ∃ name text, file = bannerFile name text := by
  unfold filesDue at member
  split at member
  · rcases List.mem_append.mp member with front | back
    · rcases List.mem_append.mp front with first | own
      · split at first
        · exact .inr ⟨_, _, List.mem_singleton.mp first⟩
        · cases first
      · exact .inl own
    · split at back
      · exact .inr ⟨_, _, List.mem_singleton.mp back⟩
      · cases back
  · exact .inl member

theorem own_mem_filesDue {file : DataFile} (member : file ∈ job.datafiles) :
    file ∈ filesDue programs config names job := by
  unfold filesDue
  split
  · exact List.mem_append_left _ (List.mem_append_right _ member)
  · exact member

/-- A property of generated banners holds of the files due if it holds of the job's own. -/
theorem forall_filesDue_iff {P : DataFile → Prop} (banners : ∀ name text, P (bannerFile name text)) :
    (∀ file ∈ filesDue programs config names job, P file) ↔ ∀ file ∈ job.datafiles, P file := by
  constructor
  · intro all file member
    exact all file (own_mem_filesDue member)
  · intro own file member
    rcases mem_filesDue member with member | ⟨name, text, rfl⟩
    · exact own file member
    · exact banners name text

/-- Only a negative count is printed less often than it is due. -/
theorem DataFile.printedCopies_eq_iff (file : DataFile) :
    file.printedCopies ≤ file.dueCopies ∧
      (file.printedCopies = file.dueCopies ↔ 0 ≤ file.fields.findFlagValue .copies) := by
  unfold printedCopies dueCopies copies
  split <;> omega

/-! ## The whole job -/

variable (programs config names job) in
/-- The text a successful job writes, the parts that `Print_job` leaves out taken away. -/
def writtenText : Bytes :=
  (if bannerDue config job && config.generateBanner then []
    else openingText programs config ++ startText programs config job) ++
  Separated.continued (separator programs config) 0
    (Separated.repeated DataFile.printedCopies DataFile.contentsText (filesDue programs config names job)) ++
  closingText programs config job

/-- A job that is printed with success has written what its opening left in the buffer, the data
files, and the end. -/
theorem printJob_written {outbuf : OutBuf} {out : Bytes}
    (plain : ∀ file ∈ job.datafiles, file.formatLetter ≠ 112)
    (printed : printJob programs config names job outbuf = some (.jsucc, out)) :
    out = writtenText programs config names job := by
  obtain ⟨start, opened, rest⟩ := Option.bind_eq_some_iff.mp printed
  obtain ⟨data, files, doBanner, info⟩ := opening_spec opened
  dsimp only at rest
  obtain ⟨last, ended, result⟩ := Option.bind_eq_some_iff.mp rest
  cases ran : printFiles programs config start.files (Progress.writeIfFilled
    { outbuf := start.outbuf, written := [], filesPrinted := 0, info := start.info }) with
  | mk status middle =>
      rw [ran] at ended result
      cases result
      have plainDue : ∀ file ∈ start.files, file.formatLetter ≠ 112 := by
        rw [files]
        refine (forall_filesDue_iff fun name text => ?_).mpr plain
        rw [(bannerFile_once name text).1]
        decide
      obtain ⟨written, infoEnd, _⟩ := printFiles_spec plainDue ran
      have banner : (if start.doBanner && (config.bannerLast || config.bannerEnd.isSome) then
            bannerText programs config config.bannerEnd middle.info else []) =
          if bannerDue config job && !config.generateBanner && (config.bannerLast || config.bannerEnd.isSome) then
            bannerText programs config config.bannerEnd (endInfo (bannerName config job.info).2 job.datafiles)
          else [] := by
        rw [← doBanner]
        split
        · rename_i last
          have placed := (Bool.and_eq_true_iff.mp last).1
          have own : filesDue programs config names job = job.datafiles := by
            rw [placed] at doBanner
            have kept := (Bool.and_eq_true_iff.mp doBanner.symm).2
            exact if_neg fun generated => by
              rw [(Bool.and_eq_true_iff.mp generated).2] at kept
              cases kept
          rw [infoEnd, Progress.info_writeIfFilled, info placed, files, own]
        · rfl
      rw [endOfJob_spec ended, written, Progress.written_writeIfFilled, Progress.filesPrinted_writeIfFilled,
        List.nil_append, data, files, banner]
      rfl

/-- Nothing is lost: no generated banner clears the text of the opening, and no data file has a
negative copy count, unless it is empty and the copy that is missing leaves out no separator. -/
structure Lossless (programs : Programs) (config : Settings) (names : Bytes × Bytes) (job : PrintedJob) :
    Prop where
  opening : (bannerDue config job && config.generateBanner) = true → openingText programs config = []
  texts : ∀ file ∈ job.datafiles, 0 ≤ file.fields.findFlagValue .copies ∨ file.contentsText = []
  separators : separator programs config = [] ∨
    (∀ file ∈ job.datafiles, 0 ≤ file.fields.findFlagValue .copies) ∨
    ((filesDue programs config names job).map DataFile.dueCopies).sum ≤ 1

theorem writtenText_eq_expected_iff :
    writtenText programs config names job = expected programs config names job ↔
      Lossless programs config names job := by
  have fewer : ∀ file ∈ filesDue programs config names job, file.printedCopies ≤ file.dueCopies :=
    fun file _ => file.printedCopies_eq_iff.1
  have front : (if bannerDue config job && config.generateBanner then []
        else openingText programs config ++ startText programs config job).Sublist
      (openingText programs config ++ startText programs config job) := by
    split
    · exact List.nil_sublist _
    · exact List.Sublist.refl _
  have files : (Separated.continued (separator programs config) 0
        (Separated.repeated DataFile.printedCopies DataFile.contentsText (filesDue programs config names job))).Sublist
      (Separated.continued (separator programs config) 0
        (Separated.repeated DataFile.dueCopies DataFile.contentsText (filesDue programs config names job))) :=
    Separated.continued_sublist (Separated.repeated_sublist fewer) (Nat.le_refl 0)
  have whole : writtenText programs config names job = expected programs config names job ↔
      (if bannerDue config job && config.generateBanner then []
          else openingText programs config ++ startText programs config job) =
        openingText programs config ++ startText programs config job ∧
      Separated.continued (separator programs config) 0
          (Separated.repeated DataFile.printedCopies DataFile.contentsText (filesDue programs config names job)) =
        Separated.continued (separator programs config) 0
          (Separated.repeated DataFile.dueCopies DataFile.contentsText (filesDue programs config names job)) := by
    rw [writtenText, expected, ← Separated.continued_zero, List.append_left_inj]
    exact Separated.append_eq_append_iff_of_sublist front files
  have opening : (if bannerDue config job && config.generateBanner then []
          else openingText programs config ++ startText programs config job) =
        openingText programs config ++ startText programs config job ↔
      ((bannerDue config job && config.generateBanner) = true → openingText programs config = []) := by
    by_cases generated : (bannerDue config job && config.generateBanner) = true
    · have none : startText programs config job = [] := by
        refine if_neg fun started => ?_
        have kept := (Bool.and_eq_true_iff.mp (Bool.and_eq_true_iff.mp started).1).2
        rw [(Bool.and_eq_true_iff.mp generated).2] at kept
        cases kept
      rw [if_pos generated, none, List.append_nil, eq_comm]
      exact ⟨fun empty _ => empty, fun lost => lost generated⟩
    · rw [if_neg generated]
      exact iff_of_true rfl fun due => absurd due generated
  have counts : (∀ file ∈ filesDue programs config names job, file.printedCopies = file.dueCopies) ↔
      ∀ file ∈ job.datafiles, 0 ≤ file.fields.findFlagValue .copies := by
    refine (forall₂_congr fun file _ => file.printedCopies_eq_iff.2).trans (forall_filesDue_iff fun name text => ?_)
    rw [(bannerFile_once name text).2]
  have texts : (∀ file ∈ filesDue programs config names job,
        file.printedCopies = file.dueCopies ∨ file.contentsText = []) ↔
      ∀ file ∈ job.datafiles, 0 ≤ file.fields.findFlagValue .copies ∨ file.contentsText = [] := by
    refine (forall₂_congr fun file _ => or_congr_left file.printedCopies_eq_iff.2).trans
      (forall_filesDue_iff fun name text => .inl ?_)
    rw [(bannerFile_once name text).2]
  rw [whole, Separated.continued_repeated_eq_iff fewer, opening, counts, texts]
  exact ⟨fun ⟨first, second, third⟩ => ⟨first, second, third⟩, fun kept => ⟨kept.opening, kept.texts, kept.separators⟩⟩

/-! ## Success -/

variable (config) in
theorem printBanner_isSome (running : ∀ pgm info, (programs.banner pgm info).isSome) (pgm : Option Bytes)
    (info : Fields) (buf : OutBuf) : ∃ after, printBanner programs config pgm info buf = some after := by
  unfold printBanner
  split
  · rename_i program _
    obtain ⟨text, output⟩ := Option.isSome_iff_exists.mp (running program info)
    exact ⟨_, congrArg (Option.map _) output⟩
  · split
    · exact ⟨_, rfl⟩
    · exact ⟨_, rfl⟩

variable (config) in
theorem bannerFiles_isSome (running : ∀ pgm info, (programs.banner pgm info).isSome) (placed : Bool)
    (pgm : Option Bytes) (name : Bytes) (info : Fields) (buf : OutBuf) :
    ∃ made, bannerFiles programs config placed pgm name info buf = some made := by
  unfold bannerFiles
  split
  · obtain ⟨after, printed⟩ := printBanner_isSome config running pgm info buf.initBuf
    exact ⟨_, congrArg (Option.map _) printed⟩
  · exact ⟨_, rfl⟩
theorem addBannerToJob_isSome (running : ∀ pgm info, (programs.banner pgm info).isSome) (info : Fields)
    (files : List DataFile) (buf : OutBuf) :
    ∃ added, addBannerToJob programs config names info files buf = some added := by
  obtain ⟨⟨front, middle⟩, first⟩ := bannerFiles_isSome config running (!config.bannerLast) config.bannerStart
    names.1 (nameBanner info) buf
  obtain ⟨⟨back, left⟩, second⟩ := bannerFiles_isSome config running
    (config.bannerLast || config.bannerEnd.isSome) config.bannerEnd names.2 (nameBanner info) middle
  exact ⟨(nameBanner info, front ++ files ++ back, left),
    Option.bind_eq_some_iff.mpr ⟨_, first, Option.bind_eq_some_iff.mpr ⟨_, second, rfl⟩⟩⟩

theorem opening_isSome (running : ∀ pgm info, (programs.banner pgm info).isSome) (outbuf : OutBuf) :
    ∃ start, opening programs config names job outbuf = some start := by
  unfold opening
  dsimp only
  split
  · obtain ⟨added, banners⟩ := addBannerToJob_isSome running _ _ _
    exact ⟨_, Option.bind_eq_some_iff.mpr ⟨added, banners, rfl⟩⟩
  · split
    · obtain ⟨after, printed⟩ := printBanner_isSome config running _ _ _
      exact ⟨_, Option.bind_eq_some_iff.mpr ⟨after, printed, rfl⟩⟩
    · exact ⟨_, rfl⟩

variable (config) in
theorem endOfJob_isSome (running : ∀ pgm info, (programs.banner pgm info).isSome) (doBanner : Bool)
    (p : Progress) : ∃ after, endOfJob programs config doBanner p = some after := by
  have bannered : ∃ buf, (if doBanner && (config.bannerLast || config.bannerEnd.isSome) then
      printBanner programs config config.bannerEnd p.info p.outbuf.initBuf
    else some p.outbuf.initBuf) = some buf := by
    split
    · exact printBanner_isSome config running config.bannerEnd p.info p.outbuf.initBuf
    · exact ⟨_, rfl⟩
  obtain ⟨buf, printed⟩ := bannered
  exact ⟨_, Option.map_eq_some_iff.mpr ⟨buf, printed, rfl⟩⟩

variable (programs config) in
theorem printFiles_jsucc {files : List DataFile} (plain : ∀ file ∈ files, file.formatLetter ≠ 112)
    (readable : ∀ file ∈ files, file.contents.isSome) (p : Progress) :
    (printFiles programs config files p).1 = .jsucc := by
  induction files generalizing p with
  | nil => rfl
  | cons file rest ih =>
      rw [List.forall_mem_cons] at plain readable
      obtain ⟨contents, opened⟩ := Option.isSome_iff_exists.mp readable.1
      simp only [printFiles, DataFile.text, opened, if_neg plain.1]
      exact ih plain.2 readable.2 _

/-- With banner programs that do not fail and files that can be read, `Print_job` is successful. -/
theorem printJob_succeeds (running : ∀ pgm info, (programs.banner pgm info).isSome)
    (plain : ∀ file ∈ job.datafiles, file.formatLetter ≠ 112)
    (readable : ∀ file ∈ job.datafiles, file.contents.isSome) (outbuf : OutBuf) :
    ∃ out, printJob programs config names job outbuf = some (.jsucc, out) := by
  obtain ⟨start, opened⟩ : ∃ start, opening programs config names job outbuf = some start :=
    opening_isSome running outbuf
  have files := (opening_spec opened).2.1
  have plainDue : ∀ file ∈ start.files, file.formatLetter ≠ 112 := by
    rw [files]
    refine (forall_filesDue_iff fun name text => ?_).mpr plain
    rw [(bannerFile_once name text).1]
    decide
  have readableDue : ∀ file ∈ start.files, file.contents.isSome := by
    rw [files]
    exact (forall_filesDue_iff fun name text => rfl).mpr readable
  cases ran : printFiles programs config start.files (Progress.writeIfFilled
    { outbuf := start.outbuf, written := [], filesPrinted := 0, info := start.info }) with
  | mk status middle =>
      have success : status = .jsucc := by
        have first := printFiles_jsucc programs config plainDue readableDue (Progress.writeIfFilled
          { outbuf := start.outbuf, written := [], filesPrinted := 0, info := start.info })
        rwa [ran] at first
      obtain ⟨after, ended⟩ := endOfJob_isSome config running start.doBanner middle
      refine ⟨after.written, Option.bind_eq_some_iff.mpr ⟨start, opened, ?_⟩⟩
      dsimp only
      rw [ran, success]
      exact Option.bind_eq_some_iff.mpr ⟨after, ended, rfl⟩

/-- A job that is printed with success has written exactly what it is meant to, in the order of
the configuration, if and only if nothing is lost. -/
theorem printJob_complete_iff {outbuf : OutBuf} {out : Bytes}
    (plain : ∀ file ∈ job.datafiles, file.formatLetter ≠ 112)
    (printed : printJob programs config names job outbuf = some (.jsucc, out)) :
    out = expected programs config names job ↔ Lossless programs config names job := by
  rw [printJob_written plain printed]
  exact writtenText_eq_expected_iff

/-! ## A printer that is reset by its leader -/

/-- Short banners, and the leader `\\033E`. -/
def siteConfig (generateBanner : Bool) : Settings where
  formFeed := some (lit "\\f")
  leaderOnOpen := some (lit "\\033E")
  trailerOnClose := none
  ffOnOpen := false
  ffOnClose := false
  ffSeparator := false
  noFfSeparator := true
  alwaysBanner := false
  suppressHeader := false
  bannerLast := false
  generateBanner := generateBanner
  shortBanner := true
  bannerStart := none
  bannerEnd := none
  bannerPrinter := none
  bannerLine := lit "papa"
  prProgram := none

def sitePrograms : Programs where
  banner := fun _ _ => some []
  fixDollars := fun line _ => line
  pretty := fun _ _ contents => some contents
  buffer := []

/-- A job of `papa` with one data file. -/
def papaJob : PrintedJob where
  info := Fields.empty.setStrValue bnrname (some (lit "papa"))
  datafiles := [{ fields := Fields.empty.setStrValue .format (some (lit "f")), contents := some (lit "hi") }]

def emptyBuf : OutBuf := { max := 0, data := [], fits := Nat.le_refl 0 }

theorem papaJob_plain : ∀ file ∈ papaJob.datafiles, file.formatLetter ≠ 112 := by
  intro file member
  rw [List.mem_singleton.mp member]
  decide

theorem siteConfig_opening (generateBanner : Bool) :
    openingText sitePrograms (siteConfig generateBanner) = [27, 69] := by
  have leader : lit "\\033E" = [92, 48, 51, 51, 69] := by decide
  have digits : [48, 51, 51].takeWhile isDigit = [48, 51, 51] := by decide
  have octal : UInt8.ofNat ((strtol 8 (cstr [48, 51, 51])).1 % 256).toNat = 27 := by decide
  have decoded : decodeEscapes [] [92, 48, 51, 51, 69] = [27, 69] := by
    simp [decodeEscapes, digits, octal]
  have leaderStr : Settings.leaderStr sitePrograms (siteConfig generateBanner) = some [27, 69] := by
    rw [Settings.leaderStr, fixStr, siteConfig, leader, Option.map_some]
    exact (congrArg (fun s => Option.filter (· ≠ []) (some (cstr s))) decoded).trans rfl
  rw [openingText, leaderStr]
  rfl

/-- The two settings differ in what the generated banner does to the leader. -/
theorem siteConfig_lossless_iff (generateBanner : Bool) (names : Bytes × Bytes) :
    Lossless sitePrograms (siteConfig generateBanner) names papaJob ↔ generateBanner = false := by
  have due : bannerDue (siteConfig generateBanner) papaJob = true := by
    cases generateBanner <;> decide
  have counts : ∀ file ∈ papaJob.datafiles, 0 ≤ file.fields.findFlagValue .copies := by
    intro file member
    rw [List.mem_singleton.mp member]
    decide
  constructor
  · intro kept
    have cleared := kept.opening
    rw [due, Bool.true_and, siteConfig_opening] at cleared
    cases generateBanner with
    | false => rfl
    | true => exact absurd (cleared rfl) (List.cons_ne_nil _ _)
  · intro off
    subst off
    exact ⟨nofun, fun file member => .inl (counts file member), .inr (.inl counts)⟩

theorem papaJob_succeeds (generateBanner : Bool) (names : Bytes × Bytes) :
    ∃ out, printJob sitePrograms (siteConfig generateBanner) names papaJob emptyBuf = some (.jsucc, out) :=
  printJob_succeeds (fun _ _ => rfl) papaJob_plain (fun file member => by rw [List.mem_singleton.mp member]; rfl) _

/-- Without generated banners the printer is reset before the job. -/
theorem leader_written :
    ∃ out, printJob sitePrograms (siteConfig false) ([], []) papaJob emptyBuf = some (.jsucc, out) ∧
      out = expected sitePrograms (siteConfig false) ([], []) papaJob := by
  obtain ⟨out, printed⟩ := papaJob_succeeds false ([], [])
  exact ⟨out, printed, (printJob_complete_iff papaJob_plain printed).mpr ((siteConfig_lossless_iff false _).mpr rfl)⟩

/-- With generated banners it is not, though the job is printed with success. -/
theorem leader_lost :
    ∃ out, printJob sitePrograms (siteConfig true) ([], []) papaJob emptyBuf = some (.jsucc, out) ∧
      out ≠ expected sitePrograms (siteConfig true) ([], []) papaJob := by
  obtain ⟨out, printed⟩ := papaJob_succeeds true ([], [])
  refine ⟨out, printed, fun complete => ?_⟩
  rw [printJob_written papaJob_plain printed, writtenText_eq_expected_iff, siteConfig_lossless_iff] at complete
  cases complete

end PrintJob

end LPRng
