import Chist.Hdr.Account
import Chist.Hdr.AddCorrect
import Chist.Hdr.Subtract
import Chist.Print
import Chist.Serialization.Accept
import Chist.Print.Agree
import Chist.Print.Conserve
import Chist.Print.Accuracy
import Chist.Print.Assumptions
import Chist.Print.Chronology
import Chist.Print.Exact
import Chist.Print.Grid
import Chist.Print.Order
import Chist.Print.Rows
import Chist.Summarize.Interval
import Chist.Sync.Histograms
import Chist.Built
