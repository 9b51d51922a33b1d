import ServerPages.Control.Type

/-! The controls that stand for plain elements marked `runat="server"`. -/

namespace ServerPages.Html

def htmlControls : Text := "System.Web.UI.HtmlControls".toList

/-- The control for each element that has its own, `input` aside. -/
def elementControls : List (String × String) :=
  [("a", "HtmlAnchor"), ("button", "HtmlButton"), ("form", "HtmlForm"), ("head", "HtmlHead"),
   ("iframe", "HtmlIframe"), ("img", "HtmlImage"), ("link", "HtmlLink"), ("meta", "HtmlMeta"),
   ("select", "HtmlSelect"), ("table", "HtmlTable"), ("td", "HtmlTableCell"),
   ("th", "HtmlTableCell"), ("tr", "HtmlTableRow"), ("textarea", "HtmlTextArea"),
   ("title", "HtmlTitle")]

def inputControls : List (String × String) :=
  [("button", "HtmlInputButton"), ("submit", "HtmlInputSubmit"), ("reset", "HtmlInputReset"),
   ("checkbox", "HtmlInputCheckBox"), ("file", "HtmlInputFile"), ("hidden", "HtmlInputHidden"),
   ("image", "HtmlInputImage"), ("password", "HtmlInputPassword"),
   ("radio", "HtmlInputRadioButton"), ("text", "HtmlInputText")]

def pick (table : List (String × String)) (name : Text) (other : String) : Text :=
  ((table.lookup (String.ofList name.lower)).getD other).toList

/-- The control of an element; an `input` without a type is a text box. -/
def controlName (element : Text) (inputType : Option Text) : Text :=
  if element.same "input".toList then
    pick inputControls (inputType.getD "text".toList) "HtmlInputGenericControl"
  else pick elementControls element "HtmlGenericControl"

def controlType (element : Text) (inputType : Option Text) : QualifiedName :=
  ⟨htmlControls, controlName element inputType⟩

end ServerPages.Html
