import FlowEdit.Text.Basic

/-!
What is reported in passing. A notice says what happened; its level and wording are functions of
it. `Logged` pairs a result with the notices given on the way to it, in order.
-/

namespace FlowEdit

inductive Level
  | unset
  | debug
  | info
  | warning
  | error
  | critical
  deriving DecidableEq, Repr

namespace Level

def rank : Level → Nat
  | .unset => 0
  | .debug => 10
  | .info => 20
  | .warning => 30
  | .error => 40
  | .critical => 50

def name : Level → String
  | .unset => "NOTSET"
  | .debug => "DEBUG"
  | .info => "INFO"
  | .warning => "WARNING"
  | .error => "ERROR"
  | .critical => "CRITICAL"

/-- Two levels have a second name. -/
def names : List (String × Level) :=
  [("CRITICAL", .critical), ("FATAL", .critical), ("ERROR", .error), ("WARN", .warning),
   ("WARNING", .warning), ("INFO", .info), ("DEBUG", .debug), ("NOTSET", .unset)]

def ofName? (w : Text) : Option Level :=
  (names.find? fun entry => entry.1.toList == w).map Prod.snd

end Level

inductive Notice
  | tableBuilt (entries : Nat)
  | aliasLoop (keyword : Text)
  | starting (name : Text)
  | ready (client : Option Text) (extensions : List Text)
  | ignored (uri : Text)
  | formatted (uri : Text) (lines : Nat)
  deriving DecidableEq, Repr

namespace Notice

def level : Notice → Level
  | .tableBuilt _ | .ignored _ | .formatted _ _ => .debug
  | .starting _ | .ready _ _ => .info
  | .aliasLoop _ => .warning

def message : Notice → String
  | .tableBuilt n => "Built indent rule table with " ++ n.repr ++ " entries"
  | .aliasLoop keyword =>
    "Alias chain for '" ++ String.ofList keyword
      ++ "' does not terminate; using default alignment"
  | .starting name => "Starting " ++ String.ofList name
  | .ready client extensions =>
    "Initialized for " ++ (client.map String.ofList).getD "unknown client" ++ "; handling "
      ++ ", ".intercalate (extensions.map String.ofList)
  | .ignored uri => "Ignoring non-cbl document " ++ String.ofList uri
  | .formatted uri n =>
    "Formatting " ++ String.ofList uri ++ ": " ++ n.repr ++ " line(s) changed"

end Notice

structure Logged (α : Type) where
  value : α
  notices : List Notice := []
  deriving DecidableEq, Repr

namespace Logged

variable {α β : Type}

def bind (x : Logged α) (f : α → Logged β) : Logged β :=
  let y := f x.value
  ⟨y.value, x.notices ++ y.notices⟩

instance : Monad Logged where
  pure a := ⟨a, []⟩
  bind := bind

def tell (n : Notice) : Logged Unit := ⟨(), [n]⟩

@[simp]
theorem value_pure (a : α) : (pure a : Logged α).value = a := rfl

@[simp]
theorem notices_pure (a : α) : (pure a : Logged α).notices = [] := rfl

@[simp]
theorem value_bind (x : Logged α) (f : α → Logged β) : (x >>= f).value = (f x.value).value := rfl

@[simp]
theorem notices_bind (x : Logged α) (f : α → Logged β) :
    (x >>= f).notices = x.notices ++ (f x.value).notices := rfl

@[simp]
theorem value_map (x : Logged α) (f : α → β) : (f <$> x).value = f x.value := rfl

@[simp]
theorem notices_map (x : Logged α) (f : α → β) : (f <$> x).notices = x.notices :=
  List.append_nil _

instance : LawfulMonad Logged := LawfulMonad.mk' Logged
  (fun x => by cases x; simp [Functor.map, bind])
  (fun a f => by simp [Bind.bind, bind, Pure.pure])
  (fun x f g => by simp [Bind.bind, bind, List.append_assoc])

end Logged

end FlowEdit
