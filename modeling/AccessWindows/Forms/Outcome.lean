import AccessWindows.Collaborators
import AccessWindows.Document.Fields
import AccessWindows.Rejection

/-!
# Written forms of verdicts and causes

Both are plain choices, written as the name of the option taken.
-/

namespace AccessWindows

open Document

def Validity.toValue (v : Validity) : Value := .text v.name

def Validity.ofValue? (d : Dialect) (v : Value) : Option Validity := do
  Validity.all[← v.option? d (Validity.all.map Validity.name)]?

def Rejection.toValue (r : Rejection) : Value := .text r.label

def Rejection.ofValue? (d : Dialect) (v : Value) : Option Rejection := do
  Rejection.all[← v.option? d (Rejection.all.map Rejection.label)]?

end AccessWindows
