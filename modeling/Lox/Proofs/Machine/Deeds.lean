import Lox.Proofs.Machine.Keeping
import Lox.Proofs.Machine.Traces

/-!
# What happens to objects while a program runs

The deeds of a run are its trace with labels for what happens to classes and instances. Frames and
references to variables have none.
-/

namespace Lox

/-- The place of the last function of a name among those that have places from `first` on. -/
def FunctionDecls.lastPlace? (first : FunctionId) (ds : List FunctionDecl) (name : String) :
    Option FunctionId :=
  ((ds.zipIdx first).reverse.find? fun d => d.1.name.lexeme = name).map Prod.snd

namespace Declaration

def method? (d : Declaration) (name : String) : Option FunctionDecl :=
  d.decl.methods.reverse.find? fun f => f.name.lexeme = name

/-- The place of the function of the last static method of a name that a class declares. -/
def static? (d : Declaration) (name : String) : Option FunctionId :=
  FunctionDecls.lastPlace? d.first d.decl.statics name

end Declaration

/-- A thing that happens to objects. -/
inductive Deed where
  | declared (d : Declaration)
  | made (c : ClassId)
  | wrote (owner : Owner) (name : Token) (v : Value) (m : Machine)
  | read (owner : Owner) (name : Token) (m : Machine)

/-- The machine on which a property is written or read. -/
def Deed.machine? : Deed → Option Machine
  | wrote _ _ _ m | read _ _ m => some m
  | declared _ | made _ => none

abbrev Deeds := Trace Deed

/-- The labels of what happens to objects. -/
def Labels.objects : Labels Deed where
  declared d _ := [.declared d]
  made c _ := [.made c]
  wrote owner name v m := [.wrote owner name v m]
  read owner name m := [.read owner name m]

theorem getMemberTrace_objects (start : ClassId) (i : InstanceId) (name : Token) (m : Machine) :
    getMemberTrace .objects start i name m = [] := by
  unfold getMemberTrace
  split <;> rfl

theorem getPropertyTrace_objects (object : Value) (name : Token) (m : Machine) :
    getPropertyTrace .objects object name m = (object.owner?.map (Deed.read · name m)).toList := by
  cases object with
  | instance_ i => exact congrArg (List.cons _) (getMemberTrace_objects _ _ _ _)
  | _ => rfl

theorem superMemberTrace_objects (id : NodeId) (keyword method : Token) (m : Machine) :
    superMemberTrace .objects id keyword method m = [] := by
  unfold superMemberTrace
  split
  · split
    · exact getMemberTrace_objects _ _ _ _
    · rfl
  · rfl

/-- A program to run, with the distances recorded for its nodes. It may be any list of statements. -/
structure Job where
  fuel : Nat
  locals : Locals
  program : List Stmt

namespace Job

/-- The machine on which a program is run after others. -/
def start (j : Job) (m : Machine) : Machine := { m with locals := j.locals }

/-- The machine that a program leaves, however it ends. -/
def leaves (j : Job) (m : Machine) : Machine := (interpret j.fuel j.program).after (j.start m)

end Job

def Machine.leaves (m : Machine) (jobs : List Job) : Machine := jobs.foldl (fun m j => j.leaves m) m

/-- The deeds of programs that are run one after another. -/
def Machine.deedsOf (m : Machine) : List Job → List Deed
  | [] => []
  | j :: jobs => interpretTrace .objects j.fuel j.program (j.start m) ++ (j.leaves m).deedsOf jobs

end Lox
