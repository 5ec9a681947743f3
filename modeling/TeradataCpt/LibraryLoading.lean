import TeradataCpt.Library.Interaction
import TeradataCpt.CptJni

namespace TeradataCpt.LibraryLoading
open CSemantics Interaction CptJni

abbrev Text := List Char

def ioException (message : String) : Failure := .thrown "java/io/IOException" message

inductive Target where
  | file (path : Text)
  | tmp
  deriving DecidableEq

inductive Loaded where
  | file (path : Text)
  | copy (bytes : List UInt8)
  deriving DecidableEq

inductive FileOp where
  | fileExists (path : Text)
  | isFile (path : Text)
  | loadLibrary (target : Target)
  | createTempFile (front suffix : Text)
  | deleteOnExit
  | openOutput
  | getResource (path : Text)
  | read (buff : List UInt8)
  | write (bytes : List UInt8)
  | closeInput
  | closeOutput

abbrev FileAns : FileOp → Type
  | .fileExists _ | .isFile _ | .getResource _ => Bool
  | .deleteOnExit => Unit
  | .read _ => Except Failure (Int × List UInt8)
  | _ => Except Failure Unit

inductive Handle (α : Type) where
  | absent
  | opened (rest : α)
  | closed

structure Files where
  tmp : Option (List UInt8)
  input : Handle (List UInt8)
  output : Handle Unit
  closeFailed : Bool
  loaded : List Loaded

def Files.before : Files := ⟨none,.absent,.absent,false,[]⟩

def isIoFailure (failure : Failure) : Prop := ∃ message, failure = .thrown "java/io/IOException" message ∨
  failure = .thrown "java/io/FileNotFoundException" message

def owes : FileOp → Files → Prop
  | .deleteOnExit,files => files.tmp.isSome
  | .openOutput,files => files.tmp.isSome
  | .loadLibrary .tmp,files => files.tmp.isSome ∧ (∀ rest, files.input ≠ .opened rest) ∧ files.output ≠ .opened ()
  | .read buff,files => buff ≠ [] ∧ ∃ rest, files.input = .opened rest
  | .write _,files => files.tmp.isSome ∧ files.output = .opened ()
  | .closeInput,files => ∃ rest, files.input = .opened rest
  | .closeOutput,files => files.output = .opened ()
  | _,_ => True

-- Other processes may change what exists and isFile answer, but not the temporary
-- file. A read gives as many bytes as it likes, but at least one before the end; a
-- write that fails may have written some; a stream is closed even where close throws.
inductive Answers (resource : Text → Option (List UInt8)) :
    (op : FileOp) → Files → FileAns op → Files → Prop where
  | fileExists {path : Text} {files : Files} (answer : Bool) : Answers resource (.fileExists path) files answer files
  | isFile {path : Text} {files : Files} (answer : Bool) : Answers resource (.isFile path) files answer files
  | loadedFile {path : Text} {files : Files} :
      Answers resource (.loadLibrary (.file path)) files (.ok ()) {files with loaded := files.loaded ++ [.file path]}
  | loadedTmp {bytes : List UInt8} {files : Files} : files.tmp = some bytes →
      Answers resource (.loadLibrary .tmp) files (.ok ()) {files with loaded := files.loaded ++ [.copy bytes]}
  | notLoaded {target : Target} {files : Files} (message : String) :
      Answers resource (.loadLibrary target) files (.error (.thrown "java/lang/UnsatisfiedLinkError" message)) files
  | tooShort {front suffix : Text} {files : Files} (message : String) : front.length < 3 →
      Answers resource (.createTempFile front suffix) files (.error (illegalArgument message)) files
  | created {front suffix : Text} {files : Files} : 3 ≤ front.length →
      Answers resource (.createTempFile front suffix) files (.ok ()) {files with tmp := some []}
  | notCreated {front suffix : Text} {files : Files} {failure : Failure} : 3 ≤ front.length → isIoFailure failure →
      Answers resource (.createTempFile front suffix) files (.error failure) files
  | deleteOnExit {files : Files} : Answers resource .deleteOnExit files () files
  | opened {files : Files} : Answers resource .openOutput files (.ok ()) {files with tmp := some [],output := .opened ()}
  | notOpened {files : Files} {failure : Failure} : isIoFailure failure →
      Answers resource .openOutput files (.error failure) files
  | found {path : Text} {files : Files} {bytes : List UInt8} : resource path = some bytes →
      Answers resource (.getResource path) files true {files with input := .opened bytes}
  | missing {path : Text} {files : Files} : resource path = none → Answers resource (.getResource path) files false files
  | endOfInput {buff : List UInt8} {files : Files} : files.input = .opened [] →
      Answers resource (.read buff) files (.ok (-1,buff)) files
  | readSome {buff chunk rest : List UInt8} {files : Files} : files.input = .opened (chunk ++ rest) → chunk ≠ [] →
      chunk.length ≤ buff.length → Answers resource (.read buff) files
        (.ok (chunk.length,chunk ++ buff.drop chunk.length)) {files with input := .opened rest}
  | readFailed {buff rest : List UInt8} {files : Files} {failure : Failure} : isIoFailure failure →
      Answers resource (.read buff) files (.error failure) {files with input := .opened rest}
  | written {bytes before : List UInt8} {files : Files} : files.tmp = some before →
      Answers resource (.write bytes) files (.ok ()) {files with tmp := some (before ++ bytes)}
  | writeFailed {bytes after : List UInt8} {files : Files} {failure : Failure} : isIoFailure failure →
      Answers resource (.write bytes) files (.error failure) {files with tmp := some after}
  | inputClosed {files : Files} : Answers resource .closeInput files (.ok ()) {files with input := .closed}
  | inputNotClosed {files : Files} {failure : Failure} : isIoFailure failure →
      Answers resource .closeInput files (.error failure) {files with input := .closed,closeFailed := true}
  | outputClosed {files : Files} : Answers resource .closeOutput files (.ok ()) {files with output := .closed}
  | outputNotClosed {files : Files} {failure : Failure} : isIoFailure failure →
      Answers resource .closeOutput files (.error failure) {files with output := .closed}

def fileContract (resource : Text → Option (List UInt8)) : Contract FileOp FileAns Files := ⟨owes,Answers resource⟩

abbrev Java (α : Type) := Prog FileOp FileAns α

def call (op : FileOp) : Java (FileAns op) := ask op

def lastIndexOf (char : Char) (text : Text) : Int :=
  match text.reverse.findIdx? (· = char) with
  | some fromEnd => text.length - 1 - fromEnd
  | none => -1

def substring (text : Text) (first last : Int) : Except Failure Text :=
  if 0 ≤ first ∧ first ≤ last ∧ last ≤ text.length then .ok ((text.take last.toNat).drop first.toNat)
  else .error (.thrown "java/lang/StringIndexOutOfBoundsException" "")

def tempName (path : Text) : Except Failure (Text × Text) := do
  let fileName ← substring path (lastIndexOf '/' path + 1) path.length
  if fileName = [] then .error (illegalArgument "The fileName should not be null")
  else
    let front ← substring fileName 0 (lastIndexOf '.' fileName)
    let suffix ← substring fileName (lastIndexOf '.' fileName) fileName.length
    return (front,suffix)

def copyLoop : Nat → List UInt8 → Java (Option (Except Failure Unit))
  | 0,_ => return none
  | rounds+1,buff => do
    let got : Except Failure (Int × List UInt8) ← call (.read buff)
    match got with
    | .error failure => return some (.error failure)
    | .ok (len,buff) =>
      if len = -1 then return some (.ok ())
      else
        let put : Except Failure Unit ← call (.write (buff.take len.toNat))
        match put with
        | .error failure => return some (.error failure)
        | .ok () => copyLoop rounds buff

-- The finally block: where in.close() throws, out.close() is not reached.
def closeBoth : Java (Except Failure Unit) := do
  let first : Except Failure Unit ← call .closeInput
  match first with
  | .error failure => return .error failure
  | .ok () => call .closeOutput

def copyAndClose (rounds : Nat) : Java (Option (Except Failure Unit)) := do
  match ← copyLoop rounds (List.replicate 1024 0) with
  | none => return none
  | some copied =>
    match ← closeBoth with
    | .error failure => return some (.error failure)
    | .ok () => return some copied

def loadCopy (rounds : Nat) (path : Text) : Java (Option (Except Failure Unit)) := do
  let out : Except Failure Unit ← call .openOutput
  match out with
  | .error failure => return some (.error failure)
  | .ok () =>
    let found : Bool ← call (.getResource path)
    if found then
      match ← copyAndClose rounds with
      | none => return none
      | some (.error failure) => return some (.error failure)
      | some (.ok ()) =>
        let result : Except Failure Unit ← call (.loadLibrary .tmp)
        return some result
    else
      let closed : Except Failure Unit ← call .closeOutput
      match closed with
      | .error failure => return some (.error failure)
      | .ok () => return some (.error (ioException "not jar call or miss lib "))

def isPlainFile (path : Text) : Java Bool := do
  let present : Bool ← call (.fileExists path)
  if present then call (.isFile path) else return false

def load (rounds : Nat) (path : Text) : Java (Option (Except Failure Unit)) := do
  if path.head? ≠ some '/' then return some (.error (illegalArgument ("Wrong path :" ++ String.ofList path)))
  else if ← isPlainFile path then
    let result : Except Failure Unit ← call (.loadLibrary (.file path))
    return some result
  else match tempName path with
    | .error failure => return some (.error failure)
    | .ok (front,suffix) =>
      let created : Except Failure Unit ← call (.createTempFile front suffix)
      match created with
      | .error failure => return some (.error failure)
      | .ok () =>
        let _ : Unit ← call .deleteOnExit
        loadCopy rounds path

-- The static initialiser. `osType` is os.name, `cpuArch` os.arch.
def nativePath (osType cpuArch : Text) : Except Failure Text :=
  if osType = "Linux".toList then
    if cpuArch = "amd64".toList ∨ cpuArch = "x86_64".toList then .ok "/libTeradataCptJniAmd64.so".toList
    else if cpuArch = "arm64".toList ∨ cpuArch = "aarch64".toList then .ok "/libTeradataCptJniArm64.so".toList
    else .error (ioException ("unsupported Linux architecture: " ++ String.ofList cpuArch))
  else if "Windows".toList <+: osType then .ok "/libTeradataCptJni.dll".toList
  else .error (ioException ("unsupported operating system: " ++ String.ofList osType))

-- catch (IOException | UnsatisfiedLinkError error)
def rethrown : Failure → Failure
  | .thrown className message =>
    if className = "java/io/IOException" ∨ className = "java/io/FileNotFoundException" ∨
        className = "java/lang/UnsatisfiedLinkError" then .thrown "java/lang/ExceptionInInitializerError" ""
    else .thrown className message
  | .fault fault => .fault fault

def initializer (rounds : Nat) (osType : Option Text) (cpuArch : Text) : Java (Option (Except Failure Unit)) :=
  match osType with
  | none => return some (.error (.thrown "java/lang/NullPointerException" ""))
  | some osType => match nativePath osType cpuArch with
    | .error failure => return some (.error (rethrown failure))
    | .ok path => do
      match ← load rounds path with
      | some (.error failure) => return some (.error (rethrown failure))
      | other => return other

section Runs
variable {resource : Text → Option (List UInt8)}

theorem secures_call (op : FileOp) (post : FileAns op → Files → Prop) (files : Files) :
    Secures (fileContract resource) (call op) post files ↔
      owes op files ∧ ∀ answer after, Answers resource op files answer after → post answer after := Iff.rfl

structure Copying (files : Files) : Prop where
  input : ∃ rest, files.input = .opened rest
  output : files.output = .opened ()
  tmp : files.tmp.isSome
  closeFailed : files.closeFailed = false
  loaded : files.loaded = []

structure Copied (bytes : List UInt8) (outcome : Option (Except Failure Unit)) (files : Files) : Prop where
  copying : Copying files
  ends : ∃ result, outcome = some result
  whole : outcome = some (.ok ()) → files.tmp = some bytes
  failed : ∀ failure, outcome = some (.error failure) → isIoFailure failure

theorem copied_failed {bytes : List UInt8} {files : Files} (copying : Copying files) {failure : Failure}
    (fails : isIoFailure failure) : Copied bytes (some (.error failure)) files := by
  refine ⟨copying,⟨_,rfl⟩,fun same => (nomatch same),fun other same => ?_⟩
  cases same
  exact fails

-- Each round moves what it read behind what was written, however much that is.
theorem copy_loop {bytes front rest buff : List UInt8} {files : Files} {rounds : Nat} (copying : Copying files)
    (room : buff ≠ []) (toCome : files.input = .opened rest) (present : files.tmp = some front)
    (whole : front ++ rest = bytes) (enough : rest.length < rounds) :
    Secures (fileContract resource) (copyLoop rounds buff) (Copied bytes) files := by
  induction rounds generalizing front rest buff files with
  | zero => omega
  | succ rounds ih =>
    rw [copyLoop,secures_bind,secures_call]
    refine ⟨⟨room,rest,toCome⟩,fun answer after answered => ?_⟩
    cases answered with
    | endOfInput atEnd =>
      rw [toCome] at atEnd
      cases atEnd
      rw [List.append_nil] at whole
      exact ⟨copying,⟨_,rfl⟩,fun _ => by rw [present,whole],fun failure same => (nomatch same)⟩
    | @readFailed _ left _ failure fails =>
      have still : Copying {files with input := .opened left} :=
        ⟨⟨left,rfl⟩,copying.output,copying.tmp,copying.closeFailed,copying.loaded⟩
      exact copied_failed still fails
    | @readSome _ chunk left _ some nonempty fits =>
      rw [toCome] at some
      cases some
      have more : ¬ ((chunk.length : Int) = -1) := by omega
      have taken : (chunk ++ buff.drop chunk.length).take (chunk.length : Int).toNat = chunk := by
        rw [Int.toNat_natCast,List.take_left]
      have positive : 0 < chunk.length := List.length_pos_iff.mpr nonempty
      dsimp only
      rw [if_neg more,taken,secures_bind,secures_call]
      refine ⟨⟨copying.tmp,copying.output⟩,fun reply later wrote => ?_⟩
      cases wrote with
      | @writeFailed _ partly _ failure fails =>
        have still : Copying {files with input := .opened left,tmp := some partly} :=
          ⟨⟨left,rfl⟩,copying.output,rfl,copying.closeFailed,copying.loaded⟩
        exact copied_failed still fails
      | @written _ before _ held =>
        have same : before = front := Option.some.inj (held.symm.trans present)
        refine ih ⟨⟨_,rfl⟩,copying.output,rfl,copying.closeFailed,copying.loaded⟩ (by simp [nonempty]) rfl rfl ?_ ?_
        · rw [same,List.append_assoc,whole]
        · rw [List.length_append] at enough
          omega

-- After the finally block no stream is open, but for the output where closing the
-- input threw.
structure Shut (files : Files) : Prop where
  input : ∀ rest, files.input ≠ .opened rest
  output : files.output = .opened () → files.closeFailed = true

theorem close_both {files : Files} (copying : Copying files) :
    Secures (fileContract resource) closeBoth (fun result after => Shut after ∧ after.tmp = files.tmp ∧ after.loaded = [] ∧
      (result = .ok () → after.closeFailed = false ∧ after.output ≠ .opened ()) ∧
      ∀ failure, result = .error failure → isIoFailure failure) files := by
  rw [closeBoth,secures_bind,secures_call]
  refine ⟨copying.input,fun answer after answered => ?_⟩
  cases answered with
  | inputNotClosed fails =>
    refine ⟨⟨fun _ same => (nomatch same),fun _ => rfl⟩,rfl,copying.loaded,fun same => (nomatch same),?_⟩
    intro failure same
    cases same
    exact fails
  | inputClosed =>
    dsimp only
    rw [secures_call]
    refine ⟨copying.output,fun reply last answered => ?_⟩
    cases answered with
    | outputClosed =>
      exact ⟨⟨fun _ same => (nomatch same),fun same => (nomatch same)⟩,rfl,copying.loaded,
        fun _ => ⟨copying.closeFailed,fun same => (nomatch same)⟩,fun failure same => (nomatch same)⟩
    | outputNotClosed fails =>
      refine ⟨⟨fun _ same => (nomatch same),fun same => (nomatch same)⟩,rfl,copying.loaded,fun same => (nomatch same),?_⟩
      intro failure same
      cases same
      exact fails

def isCaught (failure : Failure) : Prop :=
  isIoFailure failure ∨ ∃ message, failure = .thrown "java/lang/UnsatisfiedLinkError" message

structure LoadEnd (resource : Text → Option (List UInt8)) (path : Text) (result : Except Failure Unit) (files : Files) :
    Prop where
  shut : Shut files
  loaded : result = .ok () → files.output ≠ .opened () ∧
    (files.loaded = [.file path] ∨ ∃ bytes, resource path = some bytes ∧ files.loaded = [.copy bytes])
  refused : result ≠ .ok () → files.loaded = []

theorem load_failed {path : Text} {files : Files} (shut : Shut files) (none : files.loaded = []) (failure : Failure) :
    LoadEnd resource path (.error failure) files := ⟨shut,fun same => (nomatch same),fun _ => none⟩

theorem load_library {path : Text} {target : Target} {files : Files} (shut : Shut files) (none : files.loaded = [])
    (closed : files.output ≠ .opened ()) (owed : owes (.loadLibrary target) files)
    (source : target = .file path ∨ target = .tmp ∧ ∃ bytes, resource path = some bytes ∧ files.tmp = some bytes) :
    Secures (fileContract resource) (call (.loadLibrary target)) (fun result after => LoadEnd resource path result after ∧
      ∀ failure, result = .error failure → isCaught failure) files := by
  rw [secures_call]
  refine ⟨owed,fun answer after answered => ?_⟩
  cases answered with
  | notLoaded message =>
    refine ⟨load_failed shut none _,fun failure same => ?_⟩
    cases same
    exact .inr ⟨message,rfl⟩
  | @loadedFile other _ =>
    obtain rfl : other = path := by simpa using source
    refine ⟨⟨⟨shut.input,shut.output⟩,fun _ => ⟨closed,.inl ?_⟩,fun refused => absurd rfl refused⟩,
      fun failure same => (nomatch same)⟩
    exact congrArg (· ++ [Loaded.file other]) none
  | @loadedTmp bytes _ held =>
    obtain ⟨_,content,given,same⟩ : Target.tmp = .tmp ∧ ∃ bytes, resource path = some bytes ∧ files.tmp = some bytes := by
      simpa using source
    obtain rfl : bytes = content := Option.some.inj (held.symm.trans same)
    refine ⟨⟨⟨shut.input,shut.output⟩,fun _ => ⟨closed,.inr ⟨bytes,given,?_⟩⟩,fun refused => absurd rfl refused⟩,
      fun failure same => (nomatch same)⟩
    exact congrArg (· ++ [Loaded.copy bytes]) none

-- The outcome of load with what the initialiser may conclude from it.
def Finishes (resource : Text → Option (List UInt8)) (path : Text) (caught : Prop)
    (outcome : Option (Except Failure Unit)) (files : Files) : Prop :=
  ∃ result, outcome = some result ∧ LoadEnd resource path result files ∧
    (caught → ∀ failure, result = .error failure → isCaught failure)

theorem load_copy {path : Text} {files : Files} {rounds : Nat} (made : files.tmp.isSome) (input : files.input = .absent)
    (output : files.output = .absent) (fine : files.closeFailed = false) (none : files.loaded = [])
    (enough : ∀ bytes, resource path = some bytes → bytes.length < rounds) (caught : Prop) :
    Secures (fileContract resource) (loadCopy rounds path) (Finishes resource path caught) files := by
  have shut : Shut files :=
    ⟨fun rest same => (by rw [input] at same; cases same),fun same => (by rw [output] at same; cases same)⟩
  rw [loadCopy,secures_bind,secures_call]
  refine ⟨made,fun answer after answered => ?_⟩
  cases answered with
  | notOpened fails =>
    refine ⟨_,rfl,load_failed shut none _,fun _ failure same => ?_⟩
    cases same
    exact .inl fails
  | opened =>
    dsimp only
    rw [secures_bind,secures_call]
    refine ⟨trivial,fun found later looked => ?_⟩
    cases looked with
    | missing absent =>
      rw [if_neg (by simp),secures_bind,secures_call]
      refine ⟨rfl,fun reply last closed => ?_⟩
      have left : Shut {files with tmp := some [],output := .closed} :=
        ⟨fun rest same => shut.input rest same,fun same => (nomatch same)⟩
      cases closed with
      | outputClosed =>
        refine ⟨_,rfl,load_failed left none _,fun _ failure same => ?_⟩
        cases same
        exact .inl ⟨_,.inl rfl⟩
      | outputNotClosed fails =>
        refine ⟨_,rfl,load_failed left none _,fun _ failure same => ?_⟩
        cases same
        exact .inl fails
    | @found _ _ bytes given =>
      rw [if_pos rfl,secures_bind,copyAndClose,secures_bind]
      have copying : Copying {files with tmp := some [],output := .opened (),input := .opened bytes} :=
        ⟨⟨bytes,rfl⟩,rfl,rfl,fine,none⟩
      refine (copy_loop copying (by decide) rfl rfl rfl (enough bytes given)).mono fun outcome middle copied => ?_
      obtain ⟨result,rfl⟩ := copied.ends
      dsimp only
      rw [secures_bind]
      refine (close_both copied.copying).mono fun closing last closed => ?_
      obtain ⟨left,content,unloaded,clean,ioFails⟩ := closed
      cases closing with
      | error failure =>
        refine ⟨_,rfl,load_failed left unloaded _,fun _ other same => ?_⟩
        cases same
        exact .inl (ioFails failure rfl)
      | ok _ =>
        cases result with
        | error failure =>
          refine ⟨_,rfl,load_failed left unloaded _,fun _ other same => ?_⟩
          cases same
          exact .inl (copied.failed failure rfl)
        | ok _ =>
          obtain ⟨_,shutOutput⟩ := clean rfl
          have exactly := copied.whole rfl
          rw [← content] at exactly
          have owed : owes (.loadLibrary .tmp) last := ⟨by rw [exactly]; rfl,left.input,shutOutput⟩
          change Secures (fileContract resource) (call (.loadLibrary .tmp) >>= fun result => return some result)
            (Finishes resource path caught) last
          rw [secures_bind]
          refine (load_library left unloaded shutOutput owed (.inr ⟨rfl,bytes,given,exactly⟩)).mono ?_
          exact fun result after ends => ⟨result,rfl,ends.1,fun _ => ends.2⟩

theorem plain_file (path : Text) (files : Files) :
    Secures (fileContract resource) (isPlainFile path) (fun _ after => after = files) files := by
  rw [isPlainFile,secures_bind,secures_call]
  refine ⟨trivial,fun present after answered => ?_⟩
  cases answered with
  | fileExists present =>
    cases present with
    | false => rfl
    | true =>
      rw [if_pos rfl,secures_call]
      refine ⟨trivial,fun plain last answered => ?_⟩
      cases answered with
      | isFile plain => rfl

def NamedWell (path : Text) : Prop :=
  path.head? = some '/' ∧ ∃ front suffix, tempName path = .ok (front,suffix) ∧ 3 ≤ front.length

theorem before_shut : Shut .before := ⟨fun _ same => (nomatch same),fun same => (nomatch same)⟩

theorem load_ends (path : Text) {rounds : Nat} (enough : ∀ bytes, resource path = some bytes → bytes.length < rounds) :
    Secures (fileContract resource) (load rounds path) (Finishes resource path (NamedWell path)) .before := by
  unfold load
  split
  · rename_i relative
    exact ⟨_,rfl,load_failed before_shut rfl _,fun named => absurd named.1 relative⟩
  · rw [secures_bind]
    refine (plain_file path .before).mono ?_
    rintro plain files rfl
    split
    · rw [secures_bind]
      have owed : owes (.loadLibrary (.file path)) .before := trivial
      refine (load_library before_shut rfl (fun same => (nomatch same)) owed (.inl rfl)).mono ?_
      exact fun result after ends => ⟨result,rfl,ends.1,fun _ => ends.2⟩
    · cases name : tempName path with
      | error failure =>
        refine ⟨_,rfl,load_failed before_shut rfl _,fun named => ?_⟩
        obtain ⟨_,front,suffix,named,_⟩ := named
        rw [name] at named
        cases named
      | ok names =>
        obtain ⟨front,suffix⟩ := names
        dsimp only
        rw [secures_bind,secures_call]
        refine ⟨trivial,fun created after answered => ?_⟩
        cases answered with
        | tooShort message short =>
          refine ⟨_,rfl,load_failed before_shut rfl _,fun named => ?_⟩
          obtain ⟨_,_,_,named,long⟩ := named
          rw [name] at named
          cases named
          omega
        | notCreated long fails =>
          refine ⟨_,rfl,load_failed before_shut rfl _,fun _ failure same => ?_⟩
          cases same
          exact .inl fails
        | created long =>
          dsimp only
          rw [secures_bind,secures_call]
          refine ⟨rfl,fun _ last answered => ?_⟩
          cases answered with
          | deleteOnExit => exact load_copy rfl rfl rfl rfl rfl enough _

end Runs

theorem native_named {osType cpuArch path : Text} (supported : nativePath osType cpuArch = .ok path) : NamedWell path := by
  have names : path = "/libTeradataCptJniAmd64.so".toList ∨ path = "/libTeradataCptJniArm64.so".toList ∨
      path = "/libTeradataCptJni.dll".toList := by
    unfold nativePath at supported
    split at supported
    · split at supported
      · cases supported
        exact .inl rfl
      · split at supported
        · cases supported
          exact .inr (.inl rfl)
        · cases supported
    · split at supported
      · cases supported
        exact .inr (.inr rfl)
      · cases supported
  rcases names with rfl | rfl | rfl
  · exact ⟨rfl,"libTeradataCptJniAmd64".toList,".so".toList,rfl,by decide⟩
  · exact ⟨rfl,"libTeradataCptJniArm64".toList,".so".toList,rfl,by decide⟩
  · exact ⟨rfl,"libTeradataCptJni".toList,".dll".toList,rfl,by decide⟩

theorem native_refused {osType cpuArch : Text} {failure : Failure} (refused : nativePath osType cpuArch = .error failure) :
    isCaught failure := by
  unfold nativePath at refused
  split at refused
  · split at refused
    · cases refused
    · split at refused
      · cases refused
      · cases refused
        exact .inl ⟨_,.inl rfl⟩
  · split at refused
    · cases refused
    · cases refused
      exact .inl ⟨_,.inl rfl⟩

theorem rethrown_caught {failure : Failure} (caught : isCaught failure) :
    rethrown failure = .thrown "java/lang/ExceptionInInitializerError" "" := by
  rcases caught with ⟨message,rfl | rfl⟩ | ⟨message,rfl⟩
  · simp [rethrown]
  · simp [rethrown]
  · simp [rethrown]

end TeradataCpt.LibraryLoading
