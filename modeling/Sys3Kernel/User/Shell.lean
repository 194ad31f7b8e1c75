import Sys3Kernel.Fs.Files

/-!
The shell of the user program: the line editor of `main`, and `parse_cmd` with `get_param` and
`get_string`. A pointer into a line is the rest of the line, up to its null character. The editor
stores a character without a look at the end of its buffer, and `get_string` looks for the
closing quote without a look at the end of the line.
-/

namespace Sys3.Shell

open Run

def lineBufSize : Nat := 128
def stringBufSize : Nat := 2048
def catBufSize : Nat := 509
def enter : Byte := 0x0d
def delete : Byte := 0x7f
def newline : Byte := 0x0a
def quote : Byte := 0x22

/-! ## The parameters of a command -/

/-- `while (*cmd == ' ') cmd++`. -/
def skipSpaces (cmd : List Byte) : List Byte := cmd.dropWhile (· == space)

/-- A copy into `string_buf`, with the null character. -/
def toStringBuf (chars : List Byte) : Option (List Byte) :=
  if chars.length < stringBufSize then some chars else none

/-- The next word of a command. -/
def param (cmd : List Byte) : List Byte := (skipSpaces cmd).takeWhile (· != space)

def getParam (cmd : List Byte) : Option (List Byte) := toStringBuf (param cmd)

/-- The characters up to the closing quote. At the end of the line the loop reads on behind the
null character. -/
def quoted : List Byte → Option (List Byte)
  | [] => none
  | c :: cmd => if c = quote then some [] else (quoted cmd).map (c :: ·)

def getString (cmd : List Byte) : Option (List Byte) :=
  match skipSpaces cmd with
  | [] => getParam []
  | c :: cmd => if c = quote then (quoted cmd).bind toStringBuf else getParam (c :: cmd)

/-- `atoi`, with the wrap-around of an `int`. -/
def atoi (str : List Byte) : Int :=
  str.foldl (fun res c => (res * 10 + c.toNat - 0x30).bmod (2 ^ 32)) 0

/-! ## Commands -/

/-- What the system calls of a command give: `read` and `readdir` by the number of the call. -/
structure Env where
  openFile : List Byte → Nat → Int
  read : Nat → Int × (Nat → Byte)
  readdir : Nat → Option (List Byte × Bool)
  fork : Int

/-- `read` keeps to its count, and files and directories end. -/
structure Env.Ends (env : Env) : Prop where
  bounded : ∀ k, (env.read k).1 ≤ catBufSize
  file : ∃ k, (env.read k).1 = 0
  dir : ∃ k, env.readdir k = none

/-- The calls that a command makes. -/
inductive Call where
  | openFile (path : List Byte) (flags : Nat)
  | read (fd : Int)
  | lseek (fd offset : Int)
  | write (fd : Int) (bytes : List Byte)
  | close (fd : Int)
  | readdir (fd : Int)
  | fork
  | waitpid (pid : Int)
  | execve (path : List Byte)
  | printf (format : String) (args : List (List Byte ⊕ Int))

/-- The variables of the loop of `cat`. -/
structure CatState where
  count : Nat
  lastChar : Byte
  calls : List Call

/-- What `cat` writes for a character. -/
def catChar (c : Byte) : Call := .write 1 [if c = 0 then 0x78 else c]

def catRound (env : Env) (fd : Int) (s : CatState) : Option (CatState ⊕ List Call) :=
  let (numChars, catBuf) := env.read s.count
  let calls := s.calls ++ [.read fd, .printf "num_chars = %d\n" [.inr numChars]]
  if numChars = 0 then
    some (.inr (if s.lastChar ≠ newline then calls ++ [.printf "$\n" []] else calls))
  else if (catBufSize : Int) < numChars then none
  else
    let chars := (List.range numChars.toNat).map catBuf
    some (.inl ⟨s.count + 1, chars.getLastD s.lastChar, calls ++ chars.map catChar⟩)

/-- The name of an entry as `ls` prints it. -/
def showEntry (dName : List Byte) (isReg : Bool) : List Call :=
  let name := (dName.take 8).takeWhile fun c => c != space && c != 0
  let ext := dName.getD 8 0
  .printf "%s" [.inl name] ::
    (if isReg ∧ ext ≠ space ∧ ext ≠ 0 then
      [.printf ".%s" [.inl ((dName.drop 8).takeWhile (· != 0))]] else []) ++ [.printf "\n" []]

def lsRound (env : Env) (fd : Int) (s : Nat × List Call) :
    Option ((Nat × List Call) ⊕ List Call) :=
  match env.readdir s.1 with
  | none => some (.inr (s.2 ++ [.readdir fd]))
  | some (dName, isReg) => some (.inl (s.1 + 1, s.2 ++ .readdir fd :: showEntry dName isReg))

/-- The commands by their first characters. -/
inductive Command where
  | echo
  | ls
  | cat
  | edit
  | exit
  | path
  | unknown
deriving DecidableEq

/-- The comparisons of `parse_cmd`. Each stops at the first character that differs. -/
def command (cmd : List Byte) : Command :=
  if cmd.take 4 = [0x65, 0x63, 0x68, 0x6f] then .echo
  else if cmd.take 2 = [0x6c, 0x73] then .ls
  else if cmd.take 3 = [0x63, 0x61, 0x74] then .cat
  else if cmd.take 4 = [0x65, 0x64, 0x69, 0x74] then .edit
  else if cmd.take 4 = [0x65, 0x78, 0x69, 0x74] then .exit
  else if cmd.take 1 = [slash] then .path
  else .unknown

def cannotOpen (filename : List Byte) : Call := .printf "can't open file: %s\n" [.inl filename]

/-- `parse_cmd`: the result and the calls. The loops of `ls` and `cat` have `fuel` rounds. -/
def parseCmd (env : Env) (fuel : Nat) (cmd : List Byte) : Option (Int × List Call) :=
  match command cmd with
  | .echo => do
    let content ← getString (cmd.drop 4)
    some (0, [.write 1 content, .write 1 [newline]])
  | .ls => do
    let filename ← getParam (skipSpaces (cmd.drop 2))
    let fd := env.openFile filename (oRdonly ||| oDirectory)
    let opened := [Call.openFile filename (oRdonly ||| oDirectory)]
    if fd = -1 then some (0, opened ++ [cannotOpen filename])
    else do
      let calls ← loopUntil (lsRound env fd) fuel (0, opened)
      some (0, calls ++ [.close fd])
  | .cat => do
    let filename ← getParam (cmd.drop 3)
    let fd := env.openFile filename oRdonly
    let opened := [Call.openFile filename oRdonly]
    if fd = -1 then some (0, opened ++ [cannotOpen filename])
    else do
      let calls ← loopUntil (catRound env fd) fuel ⟨0, 0, opened⟩
      some (0, calls ++ [.close fd])
  | .edit => do
    let cmd := skipSpaces (cmd.drop 4)
    let filename ← getParam cmd
    let cmd := skipSpaces (cmd.drop filename.length)
    let offset ← getParam cmd
    let cmd := skipSpaces (cmd.drop offset.length)
    let content ← getString cmd
    let fd := env.openFile filename (oRdonly ||| oWronly)
    some (0, [.openFile filename (oRdonly ||| oWronly), .lseek fd (atoi offset), .write fd content,
      .close fd])
  | .exit => some (1, [.printf "Exiting shell...\n" []])
  | .path =>
    if env.fork = 0 then some (0, [.fork, .execve cmd])
    else some (0, [.fork, .printf "waiting for child process %d ...\n" [.inr env.fork],
      .waitpid env.fork])
  | .unknown => some (0, [.printf "Command not supported: %s\n" [.inl cmd]])

/-- A word that `string_buf` has room for. -/
def ParamFits (cmd : List Byte) : Prop := (param cmd).length < stringBufSize

/-- A word, or a string with its closing quote, that `string_buf` has room for. -/
def StringFits (cmd : List Byte) : Prop :=
  match skipSpaces cmd with
  | [] => True
  | c :: cmd =>
    if c = quote then quote ∈ cmd ∧ (cmd.takeWhile (· != quote)).length < stringBufSize
    else ParamFits (c :: cmd)

/-- The lines whose parameters fit, and whose strings are closed. -/
def ParseMeets (cmd : List Byte) : Prop :=
  match command cmd with
  | .echo => StringFits (cmd.drop 4)
  | .ls => ParamFits (skipSpaces (cmd.drop 2))
  | .cat => ParamFits (cmd.drop 3)
  | .edit =>
    let cmd := skipSpaces (cmd.drop 4)
    let cmd' := skipSpaces (cmd.drop (param cmd).length)
    ParamFits cmd ∧ ParamFits cmd' ∧ StringFits (skipSpaces (cmd'.drop (param cmd').length))
  | _ => True

/-! ## Where the loops end -/

section

variable {env : Env} {cmd : List Byte}

theorem toStringBuf_eq {chars : List Byte} (h : chars.length < stringBufSize) :
    toStringBuf chars = some chars := if_pos h

theorem toStringBuf_some {chars res : List Byte} (h : toStringBuf chars = some res) :
    chars.length < stringBufSize ∧ chars = res := by
  unfold toStringBuf at h
  split at h
  · exact ⟨by assumption, Option.some.inj h⟩
  · cases h

/-- The loop to the closing quote ends in the line if there is one. -/
theorem quoted_eq (cmd : List Byte) :
    quoted cmd = if quote ∈ cmd then some (cmd.takeWhile (· != quote)) else none := by
  induction cmd with
  | nil => rfl
  | cons c cmd ih =>
      unfold quoted
      by_cases hc : c = quote
      · subst hc
        simp
      · rw [if_neg hc, ih]
        by_cases hmem : quote ∈ cmd
        · rw [if_pos hmem, if_pos (List.mem_cons_of_mem c hmem), Option.map_some,
            List.takeWhile_cons_of_pos (by simpa using hc)]
        · have hnone : quote ∉ c :: cmd := by
            simp [hmem, Ne.symm hc]
          rw [if_neg hmem, if_neg hnone, Option.map_none]

theorem getString_isSome : (∃ res, getString cmd = some res) ↔ StringFits cmd := by
  unfold getString StringFits
  cases skipSpaces cmd with
  | nil => exact iff_of_true ⟨[], rfl⟩ trivial
  | cons c cmd =>
      simp only
      by_cases hc : c = quote
      · rw [if_pos hc, if_pos hc, quoted_eq]
        by_cases hmem : quote ∈ cmd
        · rw [if_pos hmem, some_bind]
          constructor
          · rintro ⟨res, hres⟩
            exact ⟨hmem, (toStringBuf_some hres).1⟩
          · exact fun h => ⟨_, toStringBuf_eq h.2⟩
        · rw [if_neg hmem]
          refine iff_of_false ?_ fun h => hmem h.1
          rintro ⟨res, hres⟩
          cases hres
      · rw [if_neg hc, if_neg hc]
        constructor
        · rintro ⟨res, hres⟩
          exact (toStringBuf_some hres).1
        · exact fun h => ⟨_, toStringBuf_eq h⟩

/-- The loop of `ls` ends with the directory. -/
theorem lsLoop_ends (h : env.Ends) (fd : Int) (calls : List Call) :
    ∃ fuel res, loopUntil (lsRound env fd) fuel (0, calls) = some res := by
  obtain ⟨last, hlast⟩ := h.dir
  have hsome : (loopUntil (lsRound env fd) (last + 1) (0, calls)).isSome := by
    refine loopUntil_isSome (fun r s => s.1 + r = last) ?_ (r := last) (Nat.zero_add last)
      (Nat.lt_succ_self last)
    rintro r ⟨k, calls⟩ hk
    simp only at hk
    cases hentry : env.readdir k with
    | none =>
        left
        simp only [lsRound, hentry]
        exact ⟨_, rfl⟩
    | some entry =>
        right
        have hne : k ≠ last := by
          rintro rfl
          rw [hlast] at hentry
          cases hentry
        refine ⟨r - 1, (k + 1, calls ++ .readdir fd :: showEntry entry.1 entry.2), ?_, ?_, ?_⟩
        · omega
        · simp only [lsRound, hentry]
        · simp only
          omega
  exact ⟨_, Option.isSome_iff_exists.mp hsome⟩

/-- The loop of `cat` ends with the file. -/
theorem catLoop_ends (h : env.Ends) (fd : Int) (calls : List Call) :
    ∃ fuel res, loopUntil (catRound env fd) fuel ⟨0, 0, calls⟩ = some res := by
  obtain ⟨last, hlast⟩ := h.file
  have hsome : (loopUntil (catRound env fd) (last + 1) ⟨0, 0, calls⟩).isSome := by
    refine loopUntil_isSome (fun r s => s.count + r = last) ?_ (r := last) (Nat.zero_add last)
      (Nat.lt_succ_self last)
    rintro r ⟨k, lastChar, calls⟩ hk
    simp only at hk
    by_cases hzero : (env.read k).1 = 0
    · left
      simp only [catRound, if_pos hzero]
      exact ⟨_, rfl⟩
    · right
      have hne : k ≠ last := by
        rintro rfl
        exact hzero hlast
      have hin : ¬ (catBufSize : Int) < (env.read k).1 := Int.not_lt.mpr (h.bounded k)
      simp only [catRound, if_neg hzero, if_neg hin]
      exact ⟨r - 1, _, by omega, rfl, by simp only; omega⟩
  exact ⟨_, Option.isSome_iff_exists.mp hsome⟩

/-- With files and directories that end, `parse_cmd` ends and stays in the line and its buffers
exactly when the parameters fit and the strings are closed. -/
theorem parseCmd_iff (h : env.Ends) :
    (∃ fuel res, parseCmd env fuel cmd = some res) ↔ ParseMeets cmd := by
  unfold parseCmd ParseMeets
  cases command cmd with
  | echo =>
      simp only
      rw [← getString_isSome]
      constructor
      · rintro ⟨fuel, res, hres⟩
        obtain ⟨content, hcontent, -⟩ := Option.bind_eq_some_iff.mp hres
        exact ⟨content, hcontent⟩
      · rintro ⟨content, hcontent⟩
        refine ⟨0, (0, [.write 1 content, .write 1 [newline]]), ?_⟩
        simp only [hcontent, bind_option, some_bind]
  | ls =>
      simp only
      constructor
      · rintro ⟨fuel, res, hres⟩
        obtain ⟨filename, hname, -⟩ := Option.bind_eq_some_iff.mp hres
        exact (toStringBuf_some hname).1
      · intro hfits
        have hname : getParam (skipSpaces (cmd.drop 2)) = some (param (skipSpaces (cmd.drop 2))) :=
          toStringBuf_eq hfits
        simp only [hname, bind_option, some_bind]
        split
        · exact ⟨0, _, rfl⟩
        · obtain ⟨fuel, calls, hloop⟩ := lsLoop_ends h
            (env.openFile (param (skipSpaces (cmd.drop 2))) (oRdonly ||| oDirectory))
            [.openFile (param (skipSpaces (cmd.drop 2))) (oRdonly ||| oDirectory)]
          exact ⟨fuel, _, by rw [hloop, some_bind]⟩
  | cat =>
      simp only
      constructor
      · rintro ⟨fuel, res, hres⟩
        obtain ⟨filename, hname, -⟩ := Option.bind_eq_some_iff.mp hres
        exact (toStringBuf_some hname).1
      · intro hfits
        have hname : getParam (cmd.drop 3) = some (param (cmd.drop 3)) := toStringBuf_eq hfits
        simp only [hname, bind_option, some_bind]
        split
        · exact ⟨0, _, rfl⟩
        · obtain ⟨fuel, calls, hloop⟩ := catLoop_ends h
            (env.openFile (param (cmd.drop 3)) oRdonly) [.openFile (param (cmd.drop 3)) oRdonly]
          exact ⟨fuel, _, by rw [hloop, some_bind]⟩
  | edit =>
      simp only
      generalize skipSpaces (cmd.drop 4) = cmd
      constructor
      · rintro ⟨fuel, res, hres⟩
        obtain ⟨filename, hname, hres⟩ := Option.bind_eq_some_iff.mp hres
        obtain ⟨hfits, rfl⟩ := toStringBuf_some hname
        obtain ⟨offset, hoffset, hres⟩ := Option.bind_eq_some_iff.mp hres
        obtain ⟨hfits', rfl⟩ := toStringBuf_some hoffset
        obtain ⟨content, hcontent, -⟩ := Option.bind_eq_some_iff.mp hres
        exact ⟨hfits, hfits', getString_isSome.mp ⟨content, hcontent⟩⟩
      · rintro ⟨hfits, hfits', hstring⟩
        obtain ⟨content, hcontent⟩ := getString_isSome.mpr hstring
        have hname : getParam cmd = some (param cmd) := toStringBuf_eq hfits
        generalize hcmd' : skipSpaces (cmd.drop (param cmd).length) = cmd' at hfits' hcontent
        have hoffset : getParam cmd' = some (param cmd') := toStringBuf_eq hfits'
        simp only [hname, bind_option, some_bind, hcmd', hoffset, hcontent]
        exact ⟨0, _, rfl⟩
  | exit => exact iff_of_true ⟨0, _, rfl⟩ trivial
  | path =>
      refine iff_of_true ⟨0, ?_⟩ trivial
      simp only
      split <;> exact ⟨_, rfl⟩
  | unknown => exact iff_of_true ⟨0, _, rfl⟩ trivial

end

/-! ## The line editor -/

/-- What a key shows, and the line that it hands to `parse_cmd`. -/
structure EditOutput where
  shown : List Byte
  submitted : Option (List Byte)

/-- The variables of `main`. It is stopped in the loop behind `exit`. -/
structure Editor where
  charInLine : Nat
  lineBuf : Nat → Byte
  stopped : Bool

namespace Editor

def start (lineBuf : Nat → Byte) : Editor := ⟨0, lineBuf, false⟩

def store (s : Editor) (c : Byte) : Nat → Byte :=
  fun i => if i = s.charInLine then c else s.lineBuf i

/-- The string in `line_buf` when there is a null character behind it. -/
def line (s : Editor) : List Byte :=
  ((List.range s.charInLine).map s.lineBuf).takeWhile (· != 0)

/-- A key typed. `parse` is what `parse_cmd` returns for a line. -/
def key (parse : List Byte → Int) (s : Editor) (c : Byte) : Option (EditOutput × Editor) :=
  if s.stopped then some (⟨[], none⟩, s)
  else if c = delete then
    if 0 < s.charInLine then
      some (⟨[0x08, space, 0x08], none⟩, { s with charInLine := s.charInLine - 1 })
    else some (⟨[], none⟩, s)
  else if lineBufSize ≤ s.charInLine then none
  else if c = enter then
    if parse s.line = 1 then
      some (⟨[newline, enter], some s.line⟩, { s with lineBuf := s.store 0, stopped := true })
    else some (⟨[newline, enter], some s.line⟩, ⟨0, s.store 0, false⟩)
  else some (⟨[c], none⟩, { s with charInLine := s.charInLine + 1, lineBuf := s.store c })

end Editor

/-- The text that has been typed in the line. -/
structure Typed where
  text : List Byte
  stopped : Bool

namespace Typed

def start : Typed := ⟨[], false⟩

/-- A key typed, with no bound on the text. -/
def key (parse : List Byte → Int) (t : Typed) (c : Byte) : Option (EditOutput × Typed) :=
  if t.stopped then some (⟨[], none⟩, t)
  else if c = delete then
    some (⟨if t.text = [] then [] else [0x08, space, 0x08], none⟩, ⟨t.text.dropLast, false⟩)
  else if c = enter then
    some (⟨[newline, enter], some (t.text.takeWhile (· != 0))⟩,
      if parse (t.text.takeWhile (· != 0)) = 1 then ⟨t.text, true⟩ else ⟨[], false⟩)
  else some (⟨[c], none⟩, ⟨t.text ++ [c], false⟩)

/-- The key deletes, or there is room for a character behind the text. -/
def Fits (t : Typed) (c : Byte) : Prop :=
  t.stopped = true ∨ c = delete ∨ t.text.length < lineBufSize

instance (t : Typed) (c : Byte) : Decidable (t.Fits c) := inferInstanceAs (Decidable (_ ∨ _))

end Typed

/-- The buffer holds the text. -/
structure Holds (t : Typed) (s : Editor) : Prop where
  stopped : s.stopped = t.stopped
  length : s.charInLine = t.text.length
  chars : (List.range s.charInLine).map s.lineBuf = t.text

section

variable {parse : List Byte → Int} {s : Editor} {t : Typed} {c : Byte}

theorem range_store (s : Editor) (c : Byte) : (List.range s.charInLine).map (s.store c) =
    (List.range s.charInLine).map s.lineBuf := by
  apply List.map_congr_left
  intro i hi
  exact if_neg (List.mem_range.mp hi).ne

/-- There is room for a key exactly when the editor stores it in its buffer. -/
theorem Holds.fits_iff (h : Holds t s) : t.Fits c ↔ (s.key parse c).isSome := by
  unfold Typed.Fits Editor.key
  rw [h.stopped, h.length]
  cases t.stopped with
  | true => exact iff_of_true (Or.inl rfl) rfl
  | false =>
      by_cases hdel : c = delete
      · simp only [if_pos hdel]
        refine iff_of_true (Or.inr (Or.inl hdel)) ?_
        rw [if_neg Bool.false_ne_true]
        split <;> rfl
      · simp only [if_neg hdel]
        by_cases hroom : lineBufSize ≤ t.text.length
        · simp only [if_pos hroom]
          refine iff_of_false ?_ Bool.false_ne_true
          rintro (hstop | heq | hlt)
          · cases hstop
          · exact hdel heq
          · omega
        · simp only [if_neg hroom]
          refine iff_of_true (Or.inr (Or.inr (Nat.lt_of_not_le hroom))) ?_
          rw [if_neg Bool.false_ne_true]
          split
          · split <;> rfl
          · rfl

/-- A key that the editor has does to the buffer what it does to the text. -/
theorem Holds.key {o : EditOutput} {s' : Editor} (h : Holds t s)
    (hkey : s.key parse c = some (o, s')) : ∃ t', t.key parse c = some (o, t') ∧ Holds t' s' := by
  have hline : s.line = t.text.takeWhile (· != 0) := by
    unfold Editor.line
    rw [h.chars]
  unfold Editor.key at hkey
  unfold Typed.key
  rw [h.stopped, hline] at hkey
  split at hkey
  · rename_i hstop
    cases hkey
    exact ⟨t, if_pos hstop, h⟩
  rename_i hgo
  rw [if_neg hgo]
  split at hkey
  · rename_i hdel
    rw [if_pos hdel]
    split at hkey
    · rename_i hpos
      cases hkey
      have hne : t.text ≠ [] := by
        intro hnil
        rw [h.length, hnil] at hpos
        exact absurd hpos (Nat.lt_irrefl 0)
      refine ⟨_, by rw [if_neg hne], ?_, ?_, ?_⟩
      · simpa [h.stopped] using hgo
      · rw [List.length_dropLast, ← h.length]
      · obtain ⟨n, hn⟩ := Nat.exists_eq_succ_of_ne_zero (Nat.pos_iff_ne_zero.mp hpos)
        rw [← h.chars, hn, List.range_succ, List.map_append]
        simp
    · rename_i hzero
      cases hkey
      have hnil : t.text = [] := List.eq_nil_of_length_eq_zero (by rw [← h.length]; omega)
      refine ⟨_, by rw [if_pos hnil], ?_, ?_, ?_⟩
      · simpa [h.stopped] using hgo
      · rw [h.length, hnil]
        rfl
      · rw [h.chars, hnil]
        rfl
  rename_i hdel
  rw [if_neg hdel]
  split at hkey
  · cases hkey
  split at hkey
  · rename_i hent
    rw [if_pos hent]
    split at hkey
    · rename_i hexit
      cases hkey
      exact ⟨⟨t.text, true⟩, by rw [if_pos hexit], rfl, h.length,
        (range_store s 0).trans h.chars⟩
    · rename_i hmore
      cases hkey
      exact ⟨_, by rw [if_neg hmore], rfl, rfl, rfl⟩
  · rename_i hchar
    rw [if_neg hchar]
    cases hkey
    refine ⟨_, rfl, ?_, ?_, ?_⟩
    · simpa [h.stopped] using hgo
    · rw [List.length_append, h.length]
      rfl
    · rw [List.range_succ, List.map_append, range_store, h.chars]
      simp [Editor.store]

/-- The editor shows and submits what is typed, as long as it is in its buffer. -/
theorem editor_refines : Refines (Typed.key parse) (Editor.key parse) (fun _ _ => True) Holds :=
  fun _ _ _ _ _ h _ hkey => h.key hkey

theorem holds_start (lineBuf : Nat → Byte) : Holds Typed.start (Editor.start lineBuf) :=
  ⟨rfl, rfl, rfl⟩

theorem editor_inBounds_iff {keys : List Byte} {lineBuf : Nat → Byte} :
    (outputs (Editor.key parse) (Editor.start lineBuf) keys).isSome ↔
      Along (stateAfter (Typed.key parse)) Typed.Fits Typed.start keys :=
  (editor_refines.along_iff (fun _ _ _ h _ => h.fits_iff) (holds_start lineBuf)
    (along_of_mem fun _ _ _ => trivial)).symm

/-- What the editor hands to `parse_cmd` is what has been typed. -/
theorem editor_submits {keys : List Byte} {lineBuf : Nat → Byte} {out : List EditOutput}
    (h : outputs (Editor.key parse) (Editor.start lineBuf) keys = some out) :
    outputs (Typed.key parse) Typed.start keys = some out :=
  editor_refines.outputs (holds_start lineBuf) (along_of_mem fun _ _ _ => trivial) h

end

/-- The shell stays in bounds: the editor on the keys of which each, but for a delete, comes with
room for a character behind the text, and `parse_cmd`, where files and directories end, on the
lines whose parameters fit and whose strings are closed. -/
theorem shell_inBounds_iff (parse : List Byte → Int) (lineBuf : Nat → Byte) (keys : List Byte)
    {env : Env} (hends : env.Ends) (cmd : List Byte) :
    ((outputs (Editor.key parse) (Editor.start lineBuf) keys).isSome ↔
      Along (stateAfter (Typed.key parse)) Typed.Fits Typed.start keys) ∧
    ((∃ fuel res, parseCmd env fuel cmd = some res) ↔ ParseMeets cmd) :=
  ⟨editor_inBounds_iff, parseCmd_iff hends⟩

/-- A machine without files. -/
def emptyEnv : Env := ⟨fun _ _ => -1, fun _ => (0, fun _ => 0), fun _ => none, 0⟩

theorem emptyEnv_ends : emptyEnv.Ends := ⟨fun _ => Int.natCast_nonneg _, ⟨0, rfl⟩, ⟨0, rfl⟩⟩

/-- `ls`, with a key too much that is deleted. -/
theorem shell_inBounds_ls :
    (outputs (Editor.key fun _ => 0) (Editor.start fun _ => 0)
      [0x6c, 0x73, 0x73, delete, enter]).isSome ∧
    ∃ fuel res, parseCmd emptyEnv fuel [0x6c, 0x73] = some res := by
  obtain ⟨heditor, hparse⟩ := shell_inBounds_iff (fun _ => 0) (fun _ => 0)
    [0x6c, 0x73, 0x73, delete, enter] emptyEnv_ends [0x6c, 0x73]
  exact ⟨heditor.mpr (by decide +kernel),
    hparse.mpr (by decide : (param []).length < stringBufSize)⟩

/-- A line of 129 characters, and `echo "`. -/
theorem shell_outside :
    outputs (Editor.key fun _ => 0) (Editor.start fun _ => 0) (List.replicate 129 0x61) = none ∧
    ¬ ∃ fuel res, parseCmd emptyEnv fuel [0x65, 0x63, 0x68, 0x6f, space, quote] = some res := by
  refine ⟨by decide +kernel, fun hends => ?_⟩
  obtain ⟨hclosed, -⟩ := (parseCmd_iff emptyEnv_ends).mp hends
  exact absurd hclosed List.not_mem_nil

end Sys3.Shell
