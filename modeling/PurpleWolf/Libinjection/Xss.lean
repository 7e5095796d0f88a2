import PurpleWolf.Libinjection.Html5

/-! # The XSS detector (`libinjection_xss.c`)

The detector walks over the tokens of the input and reports it at the first token that a
script can hide in.  It does so five times, as if the input stood in the text of a page, or
behind the opening of an attribute in one of four ways. -/

namespace PurpleWolf.Xss

open Html5 Memory

/-- `attribute_t`. -/
inductive Attribute where
  | none
  | black
  | attrUrl
  | style
  | attrIndirect
  deriving DecidableEq

/-- A C string literal. -/
def ascii (s : String) : Bytes := s.toList.map Char.toUInt8

/-- The events of `BLACKATTREVENT`, each of which is banned. -/
def BLACKATTREVENT : List (Bytes × Attribute) :=
  [
   "ABORT", "ACCESSKEYNOTFOUND", "ACTIVATE", "ACTIVE", "ADDSOURCEBUFFER", "ADDSTREAM", "ADDTRACK",
   "AFTERPAINT", "AFTERPRINT", "AFTERSCRIPTEXECUTE", "ANIMATIONCANCEL", "ANIMATIONEND",
   "ANIMATIONITERATION", "ANIMATIONSTART", "AUDIOEND", "AUDIOCOMPLETE", "AUDIOPROCESS", "AUDIOSTART",
   "AUTOCOMPLETE", "AUTOCOMPLETEERROR", "AUXCLICK", "BACKGROUNDFETCHABORT", "BACKGROUNDFETCHCLICK",
   "BACKGROUNDFETCHFAIL", "BACKGROUNDFETCHSUCCESS", "BEFOREACTIVATE", "BEFORECOPY", "BEFORECUT",
   "BEFOREINPUT", "BEFORELOAD", "BEFOREMATCH", "BEFOREPASTE", "BEFOREPRINT", "BEFORESCRIPTEXECUTE",
   "BEFORETOGGLE", "BEFOREUNLOAD", "BEGINEVENT", "BLOCKED", "BLUR", "BOUNDARY", "BUFFEREDAMOUNTLOW",
   "BUFFEREDCHANGE", "CACHED", "CANCEL", "CANPLAY", "CANPLAYTHROUGH", "CHANGE", "CHARGINGCHANGE",
   "CHARGINGTIMECHANGE", "CHECKING", "CLICK", "CLOSE", "CLOSING", "COMPLETE", "COMPOSITIONEND",
   "COMPOSITIONSTART", "COMPOSITIONCHANGE", "COMPOSITIONUPDATE", "COMMAND", "CONFIGURATIONCHANGE",
   "CONNECT", "CONNECTING", "CONNECTIONSTATECHANGE", "CONTENTVISIBILITYAUTOSTATECHANGE", "CONTEXTLOST",
   "CONTEXTMENU", "CONTEXTRESTORED", "CONTROLLERCHANGE", "COOKIECHANGE", "COORDINATORSTATECHANGE", "COPY",
   "COUPONCODECHANGED", "CUECHANGE", "CURRENTENTRYCHANGE", "CUT", "DATAAVAILABLE", "DATACHANNEL",
   "DBLCLICK", "DEQUEUE", "DEVICECHANGE", "DEVICELIGHT", "DEVICEMOTION", "DEVICEORIENTATION",
   "DEVICEORIENTATIONABSOLUTE", "DISCHARGINGTIMECHANGE", "DISCONNECT", "DISPOSE", "DOMACTIVATE",
   "DOMCHARACTERDATAMODIFIED", "DOMCONTENTLOADED", "DOMNODEINSERTED", "DOMNODEINSERTEDINTODOCUMENT",
   "DOMNODEREMOVED", "DOMNODEREMOVEDFROMDOCUMENT", "DOMSUBTREEMODIFIED", "DOWNLOADING", "DRAG", "DRAGEND",
   "DRAGENTER", "DRAGLEAVE", "DRAGEXIT", "DRAGOVER", "DRAGSTART", "DROP", "DURATIONCHANGE", "EMPTIED",
   "ENCRYPTED", "EDGEUICANCELED", "EDGEUICOMPLETED", "EDGEUISTARTED", "EDITORBEFOREINPUT", "EDITORINPUT",
   "END", "ENDED", "ENDEVENT", "ENDSTREAMING", "ENTER", "ENTERPICTUREINPICTURE", "ERROR", "EXIT",
   "FENCEDTREECLICK", "FETCH", "FINISH", "FOCUS", "FOCUSIN", "FOCUSOUT", "FORMCHANGE",
   "FORMCHECKBOXSTATECHANGE", "FORMDATA", "FORMINVALID", "FORMRADIOSTATECHANGE", "FORMRESET", "FORMSELECT",
   "FORMSUBMIT", "FULLSCREENCHANGE", "FULLSCREENERROR", "GAMEPADAXISMOVE", "GAMEPADBUTTONDOWN",
   "GAMEPADBUTTONUP", "GAMEPADCONNECTED", "GAMEPADDISCONNECTED", "GATHERINGSTATECHANGE", "GESTURECHANGE",
   "GESTUREEND", "GESTURESCROLLEND", "GESTURESCROLLSTART", "GESTURESCROLLUPDATE", "GESTURESTART",
   "GESTURETAP", "GESTURETAPDOWN", "GOTPOINTERCAPTURE", "HASHCHANGE", "ICECANDIDATE", "ICECANDIDATEERROR",
   "ICECONNECTIONSTATECHANGE", "ICEGATHERINGSTATECHANGE", "IMAGEABORT", "INACTIVE", "INPUT",
   "INPUTSOURCESCHANGE", "INSTALL", "INVALID", "INVOKE", "KEYDOWN", "KEYPRESS", "KEYSTATUSESCHANGE",
   "KEYUP", "LANGUAGECHANGE", "LEAVEPICTUREINPICTURE", "LEGACYATTRMODIFIED", "LEGACYCHARACTERDATAMODIFIED",
   "LEGACYDOMACTIVATE", "LEGACYDOMFOCUSIN", "LEGACYDOMFOCUSOUT", "LEGACYMOUSELINEORPAGESCROLL",
   "LEGACYMOUSEPIXELSCROLL", "LEGACYNODEINSERTED", "LEGACYNODEINSERTEDINTODOCUMENT", "LEGACYNODEREMOVED",
   "LEGACYNODEREMOVEDFROMDOCUMENT", "LEGACYSUBTREEMODIFIED", "LEGACYTEXTINPUT", "LEVELCHANGE", "LOAD",
   "LOADEDDATA", "LOADEDMETADATA", "LOADEND", "LOADING", "LOADINGDONE", "LOADINGERROR", "LOADSTART",
   "LOSTPOINTERCAPTURE", "MAGNIFYGESTURE", "MAGNIFYGESTURESTART", "MAGNIFYGESTUREUPDATE", "MARK",
   "MEDIARECORDERDATAAVAILABLE", "MEDIARECORDERSTOP", "MEDIARECORDERWARNING", "MERCHANTVALIDATION",
   "MESSAGE", "MESSAGEERROR", "MOUSEDOUBLECLICK", "MOUSEDOWN", "MOUSEENTER", "MOUSEEXPLOREBYTOUCH",
   "MOUSEHITTEST", "MOUSELEAVE", "MOUSELONGTAP", "MOUSEMOVE", "MOUSEOUT", "MOUSEOVER", "MOUSEUP",
   "MOUSEWHEEL", "MOZFULLSCREENCHANGE", "MOZFULLSCREENERROR", "MOZPOINTERLOCKCHANGE", "MOZPOINTERLOCKERROR",
   "MOZVISUALRESIZE", "MOZVISUALSCROLL", "MUTE", "NAVIGATE", "NAVIGATEERROR", "NAVIGATESUCCESS",
   "NEGOTIATIONNEEDED", "NEXTTRACK", "NOMATCH", "NOTIFICATIONCLICK", "NOTIFICATIONCLOSE", "NOUPDATE",
   "OBSOLETE", "OFFLINE", "ONLINE", "OPEN", "ORIENTATIONCHANGE", "OVERFLOWCHANGED", "OVERSCROLL",
   "PAGEHIDE", "PAGEREVEAL", "PAGESHOW", "PAGESWAP", "PASTE", "PAUSE", "PAYERDETAILCHANGE",
   "PAYMENTAUTHORIZED", "PAYMENTMETHODCHANGE", "PAYMENTMETHODSELECTED", "PLAY", "PLAYING",
   "POINTERAUXCLICK", "POINTERCANCEL", "POINTERCLICK", "POINTERDOWN", "POINTERENTER", "POINTERGOTCAPTURE",
   "POINTERLEAVE", "POINTERLOCKCHANGE", "POINTERLOCKERROR", "POINTERLOSTCAPTURE", "POINTERMOVE",
   "POINTEROUT", "POINTEROVER", "POINTERRAWUPDATE", "POINTERUP", "POPSTATE", "PRESSTAPGESTURE",
   "PREVIOUSTRACK", "PROPERTYCHANGE", "PROCESSORERROR", "PROGRESS", "PUSH", "PUSHNOTIFICATION",
   "PUSHSUBSCRIPTIONCHANGE", "QUALITYCHANGE", "RATECHANGE", "READYSTATECHANGE", "REDRAW",
   "REJECTIONHANDLED", "RELEASE", "REMOVE", "REMOVESOURCEBUFFER", "REMOVESTREAM", "REMOVETRACK", "REPEAT",
   "REPEATEVENT", "RESET", "RESIZE", "RESOURCETIMINGBUFFERFULL", "RESULT", "RESUME", "ROTATEGESTURE",
   "ROTATEGESTURESTART", "ROTATEGESTUREUPDATE", "RTCTRANSFORM", "SCROLL", "SCROLLEDAREACHANGED",
   "SCROLLEND", "SCROLLPORTOVERFLOW", "SCROLLPORTUNDERFLOW", "SCROLLSNAPCHANGE", "SCROLLSNAPCHANGING",
   "SEARCH", "SECURITYPOLICYVIOLATION", "SEEKED", "SEEKING", "SELECT", "SELECTEDCANDIDATEPAIRCHANGE",
   "SELECTEND", "SELECTIONCHANGE", "SELECTSTART", "SHIPPINGADDRESSCHANGE", "SHIPPINGCONTACTSELECTED",
   "SHIPPINGMETHODSELECTED", "SHIPPINGOPTIONCHANGE", "SHOW", "SIGNALINGSTATECHANGE", "SLOTCHANGE",
   "SMILBEGINEVENT", "SMILENDEVENT", "SMILREPEATEVENT", "SORT", "SOUNDEND", "SOUNDSTART", "SOURCECLOSE",
   "SOURCEENDED", "SOURCEOPEN", "SPEECHEND", "SPEECHSTART", "SQUEEZE", "SQUEEZEEND", "SQUEEZESTART",
   "STALLED", "START", "STARTED", "STARTSTREAMING", "STATECHANGE", "STOP", "STORAGE", "SUBMIT", "SVGLOAD",
   "SVGSCROLL", "SWIPEGESTURE", "SWIPEGESTUREEND", "SWIPEGESTUREMAYSTART", "SWIPEGESTURESTART",
   "SWIPEGESTUREUPDATE", "SUCCESS", "SUSPEND", "TAPGESTURE", "TEXTINPUT", "TIMEOUT", "TIMEUPDATE", "TOGGLE",
   "TONECHANGE", "TOUCHCANCEL", "TOUCHEND", "TOUCHFORCECHANGE", "TOUCHMOVE", "TOUCHSTART", "TRACK",
   "TRANSITIONCANCEL", "TRANSITIONEND", "TRANSITIONRUN", "TRANSITIONSTART", "UNCAPTUREDERROR",
   "UNHANDLEDREJECTION", "UNIDENTIFIEDEVENT", "UNLOAD", "UNMUTE", "USERPROXIMITY", "UPDATE", "UPDATEEND",
   "UPDATEFOUND", "UPDATEREADY", "UPDATESTART", "UPGRADENEEDED", "VALIDATEMERCHANT", "VERSIONCHANGE",
   "VISIBILITYCHANGE", "VOICESCHANGED", "VOLUMECHANGE", "VRDISPLAYACTIVATE", "VRDISPLAYCONNECT",
   "VRDISPLAYDEACTIVATE", "VRDISPLAYDISCONNECT", "VRDISPLAYPRESENTCHANGE", "WAITING", "WAITINGFORKEY",
   "WEBGLCONTEXTCREATIONERROR", "WEBGLCONTEXTLOST", "WEBGLCONTEXTRESTORED", "WEBKITANIMATIONEND",
   "WEBKITANIMATIONITERATION", "WEBKITANIMATIONSTART", "WEBKITASSOCIATEFORMCONTROLS",
   "WEBKITAUTOFILLREQUEST", "WEBKITBEFORETEXTINSERTED", "WEBKITBEGINFULLSCREEN",
   "WEBKITCURRENTPLAYBACKTARGETISWIRELESSCHANGED", "WEBKITENDFULLSCREEN", "WEBKITFULLSCREENCHANGE",
   "WEBKITFULLSCREENERROR", "WEBKITKEYADDED", "WEBKITKEYERROR", "WEBKITKEYMESSAGE",
   "WEBKITMEDIASESSIONMETADATACHANGED", "WEBKITMOUSEFORCECHANGED", "WEBKITMOUSEFORCEDOWN",
   "WEBKITMOUSEFORCEUP", "WEBKITMOUSEFORCEWILLBEGIN", "WEBKITNEEDKEY", "WEBKITNETWORKINFOCHANGE",
   "WEBKITPLAYBACKTARGETAVAILABILITYCHANGED", "WEBKITPRESENTATIONMODECHANGED", "WEBKITREMOVESOURCEBUFFER",
   "WEBKITSHADOWROOTATTACHED", "WEBKITSOURCECLOSE", "WEBKITSOURCEENDED", "WEBKITSOURCEOPEN",
   "WEBKITTRANSITIONEND", "WHEEL", "WRITE", "WRITEEND", "WRITESTART", "XULBROADCAST", "XULCOMMANDUPDATE",
   "XULPOPUPHIDDEN", "XULPOPUPHIDING", "XULPOPUPSHOWING", "XULPOPUPSHOWN", "XULSYSTEMSTATUSBARCLICK", "ZOOM"].map
    fun name => (ascii name, .black)

def BLACKATTR : List (Bytes × Attribute) :=
  [
   ("ACTION", .attrUrl),
   ("ATTRIBUTENAME", .attrIndirect),
   ("BY", .attrUrl),
   ("BACKGROUND", .attrUrl),
   ("DATAFORMATAS", .black),
   ("DATASRC", .black),
   ("DYNSRC", .attrUrl),
   ("FILTER", .style),
   ("FORMACTION", .attrUrl),
   ("FOLDER", .attrUrl),
   ("FROM", .attrUrl),
   ("HANDLER", .attrUrl),
   ("HREF", .attrUrl),
   ("LOWSRC", .attrUrl),
   ("POSTER", .attrUrl),
   ("SRC", .attrUrl),
   ("STYLE", .style),
   ("TO", .attrUrl),
   ("VALUES", .attrUrl),
   ("XLINK:HREF", .attrUrl)].map
    fun (name, type) => (ascii name, type)

def BLACKTAG : List Bytes :=
  [
   "APPLET", "BASE", "COMMENT", "EMBED", "FRAME", "FRAMESET", "HANDLER", "IFRAME", "IMPORT", "ISINDEX",
   "LINK", "LISTENER", "META", "NOSCRIPT", "OBJECT", "SCRIPT", "STYLE", "VMLFRAME", "XML", "XSS"].map ascii

/-! ### Names and URLs -/

/-- `cb -= 0x20` on the letters `a` to `z`. -/
def upcase (cb : UInt8) : UInt8 := if 97 ≤ cb ∧ cb ≤ 122 then cb - 32 else cb

/-- `cstrcasecmp_with_null(a, b, n) == 0`, where `b` is what the `n` bytes are. -/
def cstrcasecmpWithNull : Bytes → Bytes → Bool
  | a, [] => a.isEmpty
  | a, cb :: b =>
      if cb = 0 then cstrcasecmpWithNull a b
      else
        match a with
        | [] => false
        | ca :: a => if ca ≠ upcase cb then false else cstrcasecmpWithNull a b

/-- The bytes start with these letters, given in upper case. -/
def startsWithNoCase : Bytes → Bytes → Bool
  | [], _ => true
  | _ :: _, [] => false
  | c :: cs, b :: bs => (b == c || b == c + 32) && startsWithNoCase cs bs

def isBlackTag (s : Bytes) : Bool :=
  if s.length < 3 then false
  else BLACKTAG.any (cstrcasecmpWithNull · s) || startsWithNoCase (ascii "SVG") s || startsWithNoCase (ascii "XSL") s

/-- The type of the first entry that matches. -/
def lookup (table : List (Bytes × Attribute)) (test : Bytes → Bool) : Option Attribute :=
  (table.find? (fun entry => test entry.1)).map Prod.snd

/-- The event of an `on...` attribute; a name that goes on behind an event is taken for it. -/
def eventType (s : Bytes) : Option Attribute :=
  if startsWithNoCase (ascii "ON") s then
    lookup BLACKATTREVENT fun name => cstrcasecmpWithNull name ((s.drop 2).take (min (s.length - 2) name.length))
  else Option.none

def isBlackAttr (s : Bytes) : Attribute :=
  if s.length < 2 then .none
  else
    let long := 5 ≤ s.length
    match if long then eventType s else Option.none with
    | some type => type
    | Option.none =>
        if long ∧ (cstrcasecmpWithNull (ascii "XMLNS") (s.take 5) ∨ cstrcasecmpWithNull (ascii "XLINK") (s.take 5)) then
          .black
        else (lookup BLACKATTR (cstrcasecmpWithNull · s)).getD .none

/-- `gsHexDecodeMap`; 256 stands for no digit. -/
def hexDigit (ch : UInt8) : Option ℕ :=
  if 48 ≤ ch ∧ ch ≤ 57 then some (ch.toNat - 48)
  else if 65 ≤ ch ∧ ch ≤ 70 then some (ch.toNat - 55)
  else if 97 ≤ ch ∧ ch ≤ 102 then some (ch.toNat - 87)
  else Option.none

def decDigit (ch : UInt8) : Option ℕ := if 48 ≤ ch ∧ ch ≤ 57 then some (ch.toNat - 48) else Option.none

/-- The loops of `html_decode_char_at` over the digits of an entity: the value, and how much
has been consumed. -/
def decodeDigits (digit : UInt8 → Option ℕ) (base : ℕ) : ℕ → ℕ → Bytes → ℕ × ℕ
  | val, i, [] => (val, i)
  | val, i, ch :: src =>
      -- a semicolon
      if ch = 59 then (val, i + 1)
      else
        match digit ch with
        | Option.none => (val, i)
        | some d =>
            if 0x1000FF < val * base + d then (38, 1) else decodeDigits digit base (val * base + d) (i + 1) src

/-- `html_decode_char_at(src, len, consumed)` on an input that is not empty; 38 is `&`. -/
def htmlDecodeCharAt (c : UInt8) (src : Bytes) : ℕ × ℕ :=
  match src with
  | c1 :: c2 :: src =>
      let hex := c2 = 120 ∨ c2 = 88
      if c ≠ 38 ∨ (hex ∧ src = []) then (c.toNat, 1)
      else if c1 ≠ 35 then (38, 1)
      else if hex then
        match src with
        | [] => (38, 1)
        | c3 :: src =>
            match hexDigit c3 with
            | Option.none => (38, 1)
            | some val => decodeDigits hexDigit 16 val 4 src
      else
        match decDigit c2 with
        | Option.none => (38, 1)
        | some val => decodeDigits decDigit 10 val 3 src
  | _ => (c.toNat, 1)

/-- The loop of `htmlencode_startswith(a, b, n)`; each turn consumes a byte or more. -/
def htmlencodeStartswithLoop : ℕ → Bool → Bytes → Bytes → Option Bool
  | 0, _, _, _ => Option.none
  | _ + 1, _, a, [] => some a.isEmpty
  | fuel + 1, first, a, c :: src =>
      match a with
      | [] => some true
      | ca :: a' =>
          let (cb, consumed) := htmlDecodeCharAt c src
          let b := (c :: src).drop consumed
          -- white space and control characters in front, NULs and line feeds everywhere
          if first = true ∧ cb ≤ 32 then htmlencodeStartswithLoop fuel first a b
          else if cb = 0 ∨ cb = 10 then htmlencodeStartswithLoop fuel false a b
          else
            let cb := if 97 ≤ cb ∧ cb ≤ 122 then cb - 32 else cb
            if ca ≠ UInt8.ofNat cb then some false else htmlencodeStartswithLoop fuel false a' b

def htmlencodeStartswith (a b : Bytes) : Option Bool := htmlencodeStartswithLoop (b.length + 1) true a b

/-- The schemes that `is_black_url` tries, in order. -/
def BLACKURL : List Bytes := ["DATA", "VIEW-SOURCE", "JAVA", "VBSCRIPT"].map ascii

/-- The first of some tests that succeeds; the later ones are not made. -/
def anyM {α : Type} (test : α → Option Bool) : List α → Option Bool
  | [] => some false
  | a :: as => do if ← test a then some true else anyM test as

/-- `is_black_url(s, len)`.  Bytes from 127 on are skipped, whether or not `char` is signed. -/
def isBlackUrl (s : Bytes) : Option Bool :=
  let s := s.dropWhile (fun c => c ≤ 32 || 127 ≤ c)
  anyM (htmlencodeStartswith · s) BLACKURL

/-! ### The detector -/

/-- What is looked for in a comment. -/
def isBlackComment (s : Bytes) : Bool :=
  s.contains CHAR_TICK ||
    (decide (3 < s.length) &&
      (s.head? == some 91 && startsWithNoCase (ascii "IF") s.tail || startsWithNoCase (ascii "XML") s)) ||
    (decide (5 < s.length) &&
      (cstrcasecmpWithNull (ascii "IMPORT") (s.take 6) || cstrcasecmpWithNull (ascii "ENTITY") (s.take 6)))

/-- The body of the loop of `libinjection_is_xss`: whether the token is reported, and the type
of the last attribute afterwards. -/
def inspectToken (attr : Attribute) (type : TokenType) (token : Bytes) : Option (Bool × Attribute) :=
  match type with
  | .doctype => some (true, .none)
  | .tagNameOpen => some (isBlackTag token, .none)
  | .attrName => some (false, isBlackAttr token)
  | .attrValue =>
      match attr with
      | .none => some (false, .none)
      | .black => some (true, .none)
      | .attrUrl => (isBlackUrl token).map (·, .none)
      | .style => some (true, .none)
      | .attrIndirect => some (isBlackAttr token ≠ .none, .none)
  | .tagComment => some (isBlackComment token, .none)
  | _ => some (false, .none)

section

variable (signedChar : Bool)

/-- The loop of `libinjection_is_xss`. -/
def isXssLoop : ℕ → Attribute → H5 → Option InjectionResult
  | 0, _, _ => Option.none
  | fuel + 1, attr, h => do
      let (result, h) ← h.next signedChar
      if result ≠ .true then some result
      else
        let token ← slice h.s h.tokenStart h.tokenLen
        let (reported, attr) ← inspectToken attr h.tokenType token
        if reported then some .true else isXssLoop fuel attr h

/-- `libinjection_is_xss(s, len, flags)`. -/
def isXssIn (s : Bytes) (flags : Flags) : Option InjectionResult :=
  isXssLoop signedChar (3 * s.length + 3) .none (H5.init s flags)

/-- The calls of `libinjection_xss(s, len)`, in order. -/
def FLAGS : List Flags := [.dataState, .valueNoQuote, .valueSingleQuote, .valueDoubleQuote, .valueBackQuote]

/-- The first result that is not `FALSE`. -/
def firstResult (s : Bytes) : List Flags → Option InjectionResult
  | [] => some .false
  | flags :: rest => do
      let result ← isXssIn signedChar s flags
      if result ≠ .false then some result else firstResult s rest

def libinjectionXss (s : Bytes) : Option InjectionResult := firstResult signedChar s FLAGS

def isXss (s : Bytes) : Bool := libinjectionXss signedChar s = some .true

end

end PurpleWolf.Xss
