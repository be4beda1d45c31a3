namespace Corosig

inductive Build where
  | debug
  | release
  deriving DecidableEq, Repr

def ensure (build : Build) (p : Prop) [Decidable p] : Option Unit :=
  match build with
  | .debug => if p then some () else none
  | .release => some ()

@[simp] theorem ensure_of {build : Build} {p : Prop} [Decidable p] (h : p) :
    ensure build p = some () := by
  cases build <;> simp [ensure, h]

end Corosig
